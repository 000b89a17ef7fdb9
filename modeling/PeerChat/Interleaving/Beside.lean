import Mathlib.Order.Basic
import PeerChat.Interleaving.Log

/-! Two programs side by side, with the world around them. A schedule says whose turn it is, so a
statement about every schedule is one about every interleaving of the two. -/
namespace Interleaving

variable {σ Λ Λ' α β : Type}

/-! The same program with other labels. -/

def Prog.relabel (f : Λ → Λ') : Prog σ Λ α → Prog σ Λ' α
  | .ret a => .ret a
  | .act l next => .act (f l) fun s => (next s).relabel f

namespace Prog
variable {f : Λ → Λ'}

@[simp] theorem relabel_ret (a : α) : (ret a : Prog σ Λ α).relabel f = ret a := rfl

@[simp] theorem relabel_act (l : Λ) (next : σ → Prog σ Λ α) :
    (act l next).relabel f = act (f l) fun s => (next s).relabel f := rfl

theorem relabel_bind (p : Prog σ Λ α) (g : α → Prog σ Λ β) :
    (p >>= g).relabel f = p.relabel f >>= fun a => (g a).relabel f := by
  induction p with
  | ret a => rfl
  | act l next ih =>
    simp only [act_bind,relabel_act]
    congr 1
    funext s
    exact ih s

theorem Emits.relabel {P : Λ' → Prop} {p : Prog σ Λ α} (hp : p.Emits fun l => P (f l)) :
    (p.relabel f).Emits P := by
  induction p with
  | ret a => trivial
  | act l next ih => exact ⟨hp.1,fun s => ih s (hp.2 s)⟩

end Prog

/-! Joint runs. -/

/-- Whose turn it is. -/
inductive Turn (Λ : Type) where
  | first
  | second
  | around (l : Λ)

inductive Actor where
  | first
  | second
  | around
  deriving DecidableEq

/-- What has been done, and where the two programs and the state are. -/
structure Joint (σ Λ α β : Type) where
  steps : List (Actor × Step σ Λ)
  first : Prog σ Λ α
  second : Prog σ Λ β
  state : σ

/-- One more step before the others. -/
def Joint.after (a : Actor) (t : Step σ Λ) (j : Joint σ Λ α β) : Joint σ Λ α β :=
  { j with steps := (a,t)::j.steps }

variable [Acts Λ σ]

/-- The joint run of a schedule. A program that has ended lets its turn pass. -/
def beside : Prog σ Λ α → Prog σ Λ β → σ → List (Turn Λ) → Joint σ Λ α β
  | p, q, s, [] => ⟨[],p,q,s⟩
  | p, q, s, .around l::c => (beside p q (apply l s) c).after .around ⟨l,s⟩
  | .act l next, q, s, .first::c => (beside (next s) q (apply l s) c).after .first ⟨l,s⟩
  | .ret a, q, s, .first::c => beside (.ret a) q s c
  | p, .act l next, s, .second::c => (beside p (next s) (apply l s) c).after .second ⟨l,s⟩
  | p, .ret b, s, .second::c => beside p (.ret b) s c

/-- The steps as one of the programs sees them. -/
def seenBy (a : Actor) (L : List (Actor × Step σ Λ)) : List (Entry σ Λ) :=
  L.map fun x => ⟨x.1 = a,x.2⟩

omit [Acts Λ σ] in
@[simp] theorem seenBy_append (a : Actor) (L M : List (Actor × Step σ Λ)) :
    seenBy a (L ++ M) = seenBy a L ++ seenBy a M := List.map_append

omit [Acts Λ σ] in
@[simp] theorem seenBy_cons_self (a : Actor) (t : Step σ Λ) (L : List (Actor × Step σ Λ)) :
    seenBy a ((a,t)::L) = ⟨true,t⟩ :: seenBy a L := by simp [seenBy]

/-- The steps of one program. -/
def stepsBy (a : Actor) (L : List (Actor × Step σ Λ)) : List (Step σ Λ) := ownSteps (seenBy a L)

omit [Acts Λ σ] in
theorem mem_stepsBy {a : Actor} {L : List (Actor × Step σ Λ)} {t : Step σ Λ} :
    t ∈ stepsBy a L ↔ (a,t) ∈ L := by
  simp [stepsBy,ownSteps,seenBy]

omit [Acts Λ σ] in
theorem stepsBy_sublist (a : Actor) (L : List (Actor × Step σ Λ)) :
    (stepsBy a L).Sublist (L.map (·.2)) := by
  unfold stepsBy ownSteps seenBy
  have hmap : L.map (·.2) = (L.map fun x => (⟨x.1 = a,x.2⟩ : Entry σ Λ)).map (·.step) := by
    rw [List.map_map]
    rfl
  rw [hmap]
  exact List.filter_sublist.map _

/-- Either program goes through its own execution, to which the other's steps are foreign. -/
theorem beside_exec (p : Prog σ Λ α) (q : Prog σ Λ β) (s : σ) (c : List (Turn Λ)) :
    Exec (fun _ => True) p s (seenBy .first (beside p q s c).steps) (beside p q s c).first
        (beside p q s c).state ∧
      Exec (fun _ => True) q s (seenBy .second (beside p q s c).steps) (beside p q s c).second
        (beside p q s c).state := by
  induction c generalizing p q s with
  | nil =>
    cases p <;> cases q <;> exact ⟨.refl,.refl⟩
  | cons t c ih =>
    cases t with
    | around l =>
      obtain ⟨hp,hq⟩ := ih p q (apply l s)
      have heq : beside p q s (.around l::c) = (beside p q (apply l s) c).after .around ⟨l,s⟩ := by
        cases p <;> cases q <;> rfl
      rw [heq]
      exact ⟨.foreign trivial hp,.foreign trivial hq⟩
    | first =>
      cases p with
      | ret a =>
        have heq : beside (.ret a) q s (.first::c) = beside (.ret a) q s c := by
          cases q <;> rfl
        rw [heq]
        exact ih _ q s
      | act l next =>
        obtain ⟨hp,hq⟩ := ih (next s) q (apply l s)
        have heq : beside (.act l next) q s (.first::c) =
            (beside (next s) q (apply l s) c).after .first ⟨l,s⟩ := by
          cases q <;> rfl
        rw [heq]
        exact ⟨.own hp,.foreign trivial hq⟩
    | second =>
      cases q with
      | ret b =>
        have heq : beside p (.ret b) s (.second::c) = beside p (.ret b) s c := by
          cases p <;> rfl
        rw [heq]
        exact ih p _ s
      | act l next =>
        obtain ⟨hp,hq⟩ := ih p (next s) (apply l s)
        have heq : beside p (.act l next) s (.second::c) =
            (beside p (next s) (apply l s) c).after .second ⟨l,s⟩ := by
          cases p <;> rfl
        rw [heq]
        exact ⟨.foreign trivial hp,.own hq⟩

/-- An execution is a sequence of steps from its first state. -/
theorem Exec.labels {Foreign : Λ → Prop} {p q : Prog σ Λ α} {s s' : σ} {t : List (Entry σ Λ)}
    (h : Exec Foreign p s t q s') :
    ∃ ls, t.map (·.step) = stepsOf s ls ∧ s' = Interleaving.after s ls := by
  induction h with
  | refl => exact ⟨[],rfl,rfl⟩
  | @own l next s t q s' _ ih =>
    obtain ⟨ls,ht,hs⟩ := ih
    exact ⟨l::ls,by simp [stepsOf,ht],hs⟩
  | @foreign p l s t q s' _ _ ih =>
    obtain ⟨ls,ht,hs⟩ := ih
    exact ⟨l::ls,by simp [stepsOf,ht],hs⟩

theorem beside_labels (p : Prog σ Λ α) (q : Prog σ Λ β) (s : σ) (c : List (Turn Λ)) :
    ∃ ls, (beside p q s c).steps.map (·.2) = stepsOf s ls ∧
      (beside p q s c).state = Interleaving.after s ls := by
  obtain ⟨ls,ht,hs⟩ := (beside_exec p q s c).1.labels
  refine ⟨ls,?_,hs⟩
  rw [← ht,seenBy,List.map_map]
  rfl

/-- What a program's own steps are after each other, its step in an execution is after those before
it. -/
theorem Prog.Traced.entry {Foreign : Λ → Prop} {G : List (Step σ Λ) → Step σ Λ → Prop}
    {Q : List (Step σ Λ) → α → Prop} {p q : Prog σ Λ α} {s s' : σ} {t u : List (Entry σ Λ)}
    {st : Step σ Λ} (hp : p.Traced G Q []) (h : Exec Foreign p s (t ++ ⟨true,st⟩::u) q s') :
    G (ownSteps t) st := by
  obtain ⟨r,s₁,hfirst,hrest⟩ := h.split
  have hr := hp.exec hfirst
  rw [List.nil_append] at hr
  cases hrest with
  | own _ => exact (hr _).1

/-- What every single step may only raise, is higher at later steps. -/
theorem stepsOf_pairwise {ν : Type} [Preorder ν] (f : σ → ν) {s : σ} {ls : List Λ}
    (hstep : ∀ t ∈ stepsOf s ls, f t.pre ≤ f t.post) :
    (stepsOf s ls).Pairwise (fun t u => f t.pre ≤ f u.pre) ∧
      ∀ t ∈ stepsOf s ls, f s ≤ f t.pre := by
  induction ls generalizing s with
  | nil => simp [stepsOf]
  | cons l ls ih =>
    obtain ⟨hpair,hlow⟩ := ih fun t ht => hstep t (List.mem_cons_of_mem _ ht)
    have hhead : f s ≤ f (apply l s) := hstep ⟨l,s⟩ (List.mem_cons_self ..)
    refine ⟨List.pairwise_cons.mpr ⟨fun t ht => hhead.trans (hlow t ht),hpair⟩,?_⟩
    intro t ht
    rcases List.mem_cons.mp ht with rfl | ht
    · exact le_rfl
    · exact hhead.trans (hlow t ht)

end Interleaving
