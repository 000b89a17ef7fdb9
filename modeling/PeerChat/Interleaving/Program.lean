import Mathlib.Algebra.GroupWithZero.Nat
import Mathlib.Data.List.Basic
import Mathlib.Tactic.Basic

/-! Programs over a shared state, and their executions among the steps of others.

A program is a tree of atomic accesses. An access carries a label, which alone determines its
effect on the shared state; the program goes on with the state that the access has found. An
execution records the accesses in their order, together with the foreign ones between them. -/
namespace Interleaving

/-- Labels that act on a state. -/
class Acts (Λ σ : Type) where
  apply : Λ → σ → σ

export Acts (apply)

inductive Prog (σ Λ α : Type) where
  | ret (a : α)
  | act (l : Λ) (next : σ → Prog σ Λ α)

namespace Prog
variable {σ Λ α β γ : Type}

def bind : Prog σ Λ α → (α → Prog σ Λ β) → Prog σ Λ β
  | .ret a, f => f a
  | .act l next, f => .act l fun s => (next s).bind f

instance : Monad (Prog σ Λ) where
  pure := .ret
  bind := bind

/-- One access; its result is the state it has found. -/
def perform (l : Λ) : Prog σ Λ σ := .act l .ret

@[simp] theorem ret_bind (a : α) (f : α → Prog σ Λ β) : (ret a >>= f) = f a := rfl

@[simp] theorem pure_eq (a : α) : (pure a : Prog σ Λ α) = ret a := rfl

@[simp] theorem act_bind (l : Λ) (next : σ → Prog σ Λ α) (f : α → Prog σ Λ β) :
    (act l next >>= f) = act l fun s => next s >>= f := rfl

@[simp] theorem perform_bind (l : Λ) (f : σ → Prog σ Λ β) : (perform l >>= f) = act l f := rfl

def isDone : Prog σ Λ α → Bool
  | .ret _ => true
  | .act .. => false

/-- Every access the program can ever make has the property. -/
def Emits (P : Λ → Prop) : Prog σ Λ α → Prop
  | .ret _ => True
  | .act l next => P l ∧ ∀ s, (next s).Emits P

@[simp] theorem emits_ret (P : Λ → Prop) (a : α) : (ret a : Prog σ Λ α).Emits P := trivial

@[simp] theorem emits_act (P : Λ → Prop) (l : Λ) (next : σ → Prog σ Λ α) :
    (act l next).Emits P ↔ P l ∧ ∀ s, (next s).Emits P := Iff.rfl

theorem Emits.bind {P : Λ → Prop} {p : Prog σ Λ α} {f : α → Prog σ Λ β} (hp : p.Emits P)
    (hf : ∀ a, (f a).Emits P) : (p >>= f).Emits P := by
  induction p with
  | ret a => exact hf a
  | act l next ih => exact ⟨hp.1,fun s => ih s (hp.2 s)⟩

theorem Emits.imp {P Q : Λ → Prop} {p : Prog σ Λ α} (hp : p.Emits P) (h : ∀ l, P l → Q l) :
    p.Emits Q := by
  induction p with
  | ret a => trivial
  | act l next ih => exact ⟨h l hp.1,fun s => ih s (hp.2 s)⟩

end Prog

/-- One atomic access: its label and the state it has found. -/
structure Step (σ Λ : Type) where
  label : Λ
  pre : σ

variable {σ Λ α β : Type} [Acts Λ σ]

/-- The state that the step leaves. -/
def Step.post (t : Step σ Λ) : σ := apply t.label t.pre

/-- The state after a sequence of labels. -/
def after (s : σ) (ls : List Λ) : σ := ls.foldl (fun s l => apply l s) s

/-- The steps of a sequence of labels. -/
def stepsOf : σ → List Λ → List (Step σ Λ)
  | _, [] => []
  | s, l::ls => ⟨l,s⟩ :: stepsOf (apply l s) ls

@[simp] theorem after_nil (s : σ) : after s ([] : List Λ) = s := rfl

@[simp] theorem after_cons (s : σ) (l : Λ) (ls : List Λ) :
    after s (l::ls) = after (apply l s) ls := rfl

theorem after_append (s : σ) (ls ms : List Λ) : after s (ls ++ ms) = after (after s ls) ms :=
  List.foldl_append

theorem stepsOf_append (s : σ) (ls ms : List Λ) :
    stepsOf s (ls ++ ms) = stepsOf s ls ++ stepsOf (after s ls) ms := by
  induction ls generalizing s with
  | nil => rfl
  | cons l ls ih => simp [stepsOf,ih]

@[simp] theorem stepsOf_labels (s : σ) (ls : List Λ) : (stepsOf s ls).map (·.label) = ls := by
  induction ls generalizing s with
  | nil => rfl
  | cons l ls ih => simp [stepsOf,ih]

/-- What every single step keeps, a sequence keeps. -/
theorem after_induction {P : σ → Prop} {ls : List Λ} {s : σ} (hs : P s)
    (hstep : ∀ l ∈ ls, ∀ s, P s → P (apply l s)) : P (after s ls) := by
  induction ls generalizing s with
  | nil => exact hs
  | cons l ls ih =>
    exact ih (hstep l (by simp) s hs) fun m hm => hstep m (by simp [hm])

/-- A view that some steps act on and the others leave alone depends on the former only. -/
theorem after_view {ν : Type} {view : σ → ν} {sees : Λ → Bool} {f : ν → Λ → ν}
    (hsees : ∀ l s, sees l = true → view (apply l s) = f (view s) l)
    (hother : ∀ l s, sees l = false → view (apply l s) = view s) (s : σ) (ls : List Λ) :
    view (after s ls) = (ls.filter sees).foldl f (view s) := by
  induction ls generalizing s with
  | nil => rfl
  | cons l ls ih =>
    rw [after_cons,ih]
    cases h : sees l with
    | true => rw [List.filter_cons_of_pos h,List.foldl_cons,hsees l s h]
    | false => rw [List.filter_cons_of_neg (by simp [h]),hother l s h]

/-! Executions of one program. -/

/-- One entry of an execution: whether it is the program's own, and the step. -/
structure Entry (σ Λ : Type) where
  own : Bool
  step : Step σ Λ

/-- The program `p`, started in `s`, has made the steps marked as its own and is now at `q` in
state `s'`. The other steps satisfy `Foreign`. -/
inductive Exec (Foreign : Λ → Prop) : Prog σ Λ α → σ → List (Entry σ Λ) → Prog σ Λ α → σ → Prop
  | refl {p s} : Exec Foreign p s [] p s
  | own {l next s t q s'} (rest : Exec Foreign (next s) (apply l s) t q s') :
      Exec Foreign (.act l next) s (⟨true,⟨l,s⟩⟩::t) q s'
  | foreign {p l s t q s'} (hl : Foreign l) (rest : Exec Foreign p (apply l s) t q s') :
      Exec Foreign p s (⟨false,⟨l,s⟩⟩::t) q s'

/-- The state after a whole execution of the program on its own. -/
def Prog.run : Prog σ Λ α → σ → σ
  | .ret _, s => s
  | .act l next, s => (next s).run (apply l s)

/-- What the program returns when it runs on its own. -/
def Prog.value : Prog σ Λ α → σ → α
  | .ret a, _ => a
  | .act l next, s => (next s).value (apply l s)

theorem Prog.value_exec (Foreign : Λ → Prop) (p : Prog σ Λ α) (s : σ) :
    ∃ t, Exec Foreign p s t (.ret (p.value s)) (p.run s) := by
  induction p generalizing s with
  | ret a => exact ⟨[],.refl⟩
  | act l next ih =>
    obtain ⟨t,h⟩ := ih s (apply l s)
    exact ⟨_,.own h⟩

/-- A sequence of foreign steps. -/
inductive Drift (Foreign : Λ → Prop) : σ → List (Entry σ Λ) → σ → Prop
  | refl {s} : Drift Foreign s [] s
  | step {l s t s'} (hl : Foreign l) (rest : Drift Foreign (apply l s) t s') :
      Drift Foreign s (⟨false,⟨l,s⟩⟩::t) s'

variable {Foreign : Λ → Prop}

/-- What foreign steps keep, a sequence of them keeps. -/
theorem Drift.keeps {P : σ → Prop} (hP : ∀ l s, Foreign l → P s → P (apply l s)) {s s' : σ}
    {t : List (Entry σ Λ)} (h : Drift Foreign s t s') (hs : P s) : P s' := by
  induction h with
  | refl => exact hs
  | step hl _ ih => exact ih (hP _ _ hl hs)

/-- No entry of a drift is the program's own. -/
theorem Drift.own_eq {s s' : σ} {t : List (Entry σ Λ)} (h : Drift Foreign s t s') :
    ∀ e ∈ t, e.own = false ∧ Foreign e.step.label := by
  induction h with
  | refl => simp
  | step hl _ ih =>
    intro e he
    rcases List.mem_cons.mp he with rfl | he
    · exact ⟨rfl,hl⟩
    · exact ih e he

/-- The own steps, in their order. -/
def ownSteps (t : List (Entry σ Λ)) : List (Step σ Λ) := (t.filter (·.own)).map (·.step)

omit [Acts Λ σ] in
@[simp] theorem ownSteps_append (t u : List (Entry σ Λ)) :
    ownSteps (t ++ u) = ownSteps t ++ ownSteps u := by simp [ownSteps]

omit [Acts Λ σ] in
@[simp] theorem ownSteps_cons_own (st : Step σ Λ) (t : List (Entry σ Λ)) :
    ownSteps (⟨true,st⟩::t) = st :: ownSteps t := rfl

omit [Acts Λ σ] in
@[simp] theorem ownSteps_cons_foreign (st : Step σ Λ) (t : List (Entry σ Λ)) :
    ownSteps (⟨false,st⟩::t) = ownSteps t := rfl

theorem Drift.ownSteps {s s' : σ} {t : List (Entry σ Λ)} (h : Drift Foreign s t s') :
    ownSteps t = [] := by
  induction h with
  | refl => rfl
  | step _ _ ih => exact ih

/-- An execution of a finished program is a drift. -/
theorem Exec.ret_inv {a : α} {s s' : σ} {t : List (Entry σ Λ)} {q : Prog σ Λ α}
    (h : Exec Foreign (.ret a) s t q s') : q = .ret a ∧ Drift Foreign s t s' := by
  generalize hp : (Prog.ret a : Prog σ Λ α) = p at h
  induction h with
  | refl => exact ⟨rfl,.refl⟩
  | own => cases hp
  | foreign hl _ ih =>
    obtain ⟨hq,hd⟩ := ih hp
    exact ⟨hq,.step hl hd⟩

/-- Before its next access a program only waits. -/
theorem Exec.act_inv {l : Λ} {next : σ → Prog σ Λ α} {s s' : σ} {t : List (Entry σ Λ)}
    {q : Prog σ Λ α} (h : Exec Foreign (.act l next) s t q s') :
    (q = .act l next ∧ Drift Foreign s t s') ∨
    ∃ d s₁ u, Drift Foreign s d s₁ ∧ t = d ++ ⟨true,⟨l,s₁⟩⟩ :: u ∧
      Exec Foreign (next s₁) (apply l s₁) u q s' := by
  generalize hp : Prog.act l next = p at h
  induction h with
  | refl => exact Or.inl ⟨rfl,.refl⟩
  | own rest =>
    cases hp
    exact Or.inr ⟨[],_,_,.refl,rfl,rest⟩
  | foreign hl _ ih =>
    rcases ih hp with ⟨hq,hd⟩ | ⟨d,s₁,u,hd,rfl,hrest⟩
    · exact Or.inl ⟨hq,.step hl hd⟩
    · exact Or.inr ⟨_,s₁,u,.step hl hd,rfl,hrest⟩

/-- A complete execution makes the next access. -/
theorem Exec.act_done {l : Λ} {next : σ → Prog σ Λ α} {a : α} {s s' : σ} {t : List (Entry σ Λ)}
    (h : Exec Foreign (.act l next) s t (.ret a) s') :
    ∃ d s₁ u, Drift Foreign s d s₁ ∧ t = d ++ ⟨true,⟨l,s₁⟩⟩ :: u ∧
      Exec Foreign (next s₁) (apply l s₁) u (.ret a) s' := by
  rcases h.act_inv with ⟨hq,-⟩ | h
  · cases hq
  · exact h

theorem Exec.ret_done {a b : α} {s s' : σ} {t : List (Entry σ Λ)}
    (h : Exec Foreign (.ret a) s t (.ret b) s') : b = a ∧ Drift Foreign s t s' := by
  obtain ⟨hq,hd⟩ := h.ret_inv
  cases hq
  exact ⟨rfl,hd⟩

/-- An execution can be cut at any of its states. -/
theorem Exec.split {p q : Prog σ Λ α} {s s' : σ} {t u : List (Entry σ Λ)}
    (h : Exec Foreign p s (t ++ u) q s') :
    ∃ r s₁, Exec Foreign p s t r s₁ ∧ Exec Foreign r s₁ u q s' := by
  induction t generalizing p s with
  | nil => exact ⟨p,s,.refl,h⟩
  | cons e t ih =>
    cases h with
    | own rest =>
      obtain ⟨r,s₁,h₁,h₂⟩ := ih rest
      exact ⟨r,s₁,.own h₁,h₂⟩
    | foreign hl rest =>
      obtain ⟨r,s₁,h₁,h₂⟩ := ih rest
      exact ⟨r,s₁,.foreign hl h₁,h₂⟩

theorem Exec.append {p q r : Prog σ Λ α} {s s₁ s₂ : σ} {t u : List (Entry σ Λ)}
    (h : Exec Foreign p s t q s₁) (h' : Exec Foreign q s₁ u r s₂) :
    Exec Foreign p s (t ++ u) r s₂ := by
  induction h with
  | refl => exact h'
  | own _ ih => exact .own (ih h')
  | foreign hl _ ih => exact .foreign hl (ih h')

/-- The foreign steps that an execution has made are all that matters of the others. -/
theorem Exec.narrow {G : Λ → Prop} {p q : Prog σ Λ α} {s s' : σ} {t : List (Entry σ Λ)}
    (h : Exec Foreign p s t q s') (ht : ∀ e ∈ t, e.own = false → G e.step.label) :
    Exec G p s t q s' := by
  induction h with
  | refl => exact .refl
  | own _ ih => exact .own (ih fun e he => ht e (List.mem_cons_of_mem _ he))
  | foreign _ _ ih =>
    exact .foreign (ht _ (List.mem_cons_self ..) rfl) (ih fun e he => ht e (List.mem_cons_of_mem _ he))

/-- The execution that a script describes: `none` is the program's next access, `some l` a foreign
one. -/
def interleave : Prog σ Λ α → σ → List (Option Λ) → List (Entry σ Λ) × Prog σ Λ α × σ
  | p, s, [] => ([],p,s)
  | p, s, some l::c =>
    let r := interleave p (apply l s) c
    (⟨false,⟨l,s⟩⟩::r.1,r.2)
  | .act l next, s, none::c =>
    let r := interleave (next s) (apply l s) c
    (⟨true,⟨l,s⟩⟩::r.1,r.2)
  | .ret a, s, none::c => interleave (.ret a) s c

theorem interleave_exec (c : List (Option Λ)) (hc : ∀ l ∈ c.filterMap id, Foreign l)
    (p : Prog σ Λ α) (s : σ) : Exec Foreign p s (interleave p s c).1 (interleave p s c).2.1
      (interleave p s c).2.2 := by
  induction c generalizing p s with
  | nil => cases p <;> exact .refl
  | cons x c ih =>
    cases x with
    | some l =>
      have hrest := ih (fun m hm => hc m (by simp at hm ⊢; exact Or.inr hm)) p (apply l s)
      cases p <;> exact .foreign (hc l (by simp)) hrest
    | none =>
      have hc' : ∀ l ∈ c.filterMap id, Foreign l := fun m hm => hc m (by simpa using hm)
      cases p with
      | ret a => exact ih hc' _ s
      | act l next => exact .own (ih hc' _ _)

/-- A script without foreign steps makes own ones only. -/
theorem interleave_own (k : ℕ) (p : Prog σ Λ α) (s : σ) :
    ∀ e ∈ (interleave p s (List.replicate k none)).1, e.own = true := by
  induction k generalizing p s with
  | zero => cases p <;> simp [interleave]
  | succ k ih =>
    cases p with
    | ret a => exact ih _ s
    | act l next =>
      intro e he
      rcases List.mem_cons.mp he with rfl | he
      · rfl
      · exact ih _ _ e he

end Interleaving
