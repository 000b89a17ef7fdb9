import PeerChat.Interleaving.Program
import Mathlib.Logic.Function.Basic

/-! A pool of processes over one shared state. Processes start, make one access at a time and
may crash between any two of them; exclusive programs hold a lock for their lifetime. A run is
a schedule, any list of events, so a statement about every schedule is one about every
interleaving. The second half is the rely/guarantee rule for pools. -/
namespace Interleaving

/-- The programs that can be started, when they can be, and what else may happen. -/
structure System (π σ Λ : Type) where
  code : π → Prog σ Λ Unit
  exclusive : π → Bool
  allowed : π → σ → Bool
  outside : Λ → Bool

structure Pool (σ Λ : Type) where
  state : σ
  /-- By process number: whether it is exclusive, and where it stands. -/
  procs : ℕ → Option (Bool × Prog σ Λ Unit)
  /-- The holder of the lock. -/
  lock : Option ℕ

inductive Event (π Λ : Type)
  | start (i : ℕ) (p : π)
  | step (i : ℕ)
  /-- A process ends, finished or not. -/
  | crash (i : ℕ)
  | outside (l : Λ)

variable {π σ Λ α β : Type} [Acts Λ σ]

/-- A pool without processes. -/
def Pool.idle (s : σ) : Pool σ Λ := ⟨s,fun _ => none,none⟩

namespace System
variable (S : System π σ Λ)

/-- One event, and the access it makes. An event that cannot happen changes nothing. -/
def next (c : Pool σ Λ) : Event π Λ → Option (Step σ Λ) × Pool σ Λ
  | .start i p =>
    if (c.procs i).isNone ∧ S.allowed p c.state ∧ (S.exclusive p → c.lock.isNone) then
      (none,{ c with
        procs := Function.update c.procs i (some (S.exclusive p,S.code p))
        lock := if S.exclusive p then some i else c.lock })
    else (none,c)
  | .step i =>
    match c.procs i with
    | some (e,.act l next) =>
      (some ⟨l,c.state⟩,{ c with
        state := apply l c.state
        procs := Function.update c.procs i (some (e,next c.state)) })
    | _ => (none,c)
  | .crash i =>
    (none,{ c with
      procs := Function.update c.procs i none
      lock := if c.lock = some i then none else c.lock })
  | .outside l => if S.outside l then (some ⟨l,c.state⟩,{ c with state := apply l c.state }) else (none,c)

def final (c : Pool σ Λ) : List (Event π Λ) → Pool σ Λ
  | [] => c
  | e::es => final (S.next c e).2 es

/-- The accesses of a schedule, in their order. -/
def trace (c : Pool σ Λ) : List (Event π Λ) → List (Step σ Λ)
  | [] => []
  | e::es => (S.next c e).1.toList ++ trace (S.next c e).2 es

theorem final_append (c : Pool σ Λ) (es fs : List (Event π Λ)) :
    S.final c (es ++ fs) = S.final (S.final c es) fs := by
  induction es generalizing c with
  | nil => rfl
  | cons e es ih => exact ih _

theorem trace_append (c : Pool σ Λ) (es fs : List (Event π Λ)) :
    S.trace c (es ++ fs) = S.trace c es ++ S.trace (S.final c es) fs := by
  induction es generalizing c with
  | nil => rfl
  | cons e es ih => simp [trace,final,ih]

/-- An event makes at most one access, from the pool's own state. -/
theorem next_cases (c : Pool σ Λ) (e : Event π Λ) :
    ((S.next c e).1 = none ∧ (S.next c e).2.state = c.state) ∨
    ∃ l, (S.next c e).1 = some ⟨l,c.state⟩ ∧ (S.next c e).2.state = apply l c.state := by
  cases e with
  | start i p =>
    left
    simp only [next]
    split_ifs <;> exact ⟨rfl,rfl⟩
  | step i =>
    simp only [next]
    split
    · exact Or.inr ⟨_,rfl,rfl⟩
    · exact Or.inl ⟨rfl,rfl⟩
  | crash i => exact Or.inl ⟨rfl,rfl⟩
  | outside l =>
    simp only [next]
    split_ifs
    · exact Or.inr ⟨_,rfl,rfl⟩
    · exact Or.inl ⟨rfl,rfl⟩

/-- The accesses of a schedule are one sequence of labels from the first state. -/
theorem exists_labels (c : Pool σ Λ) (es : List (Event π Λ)) :
    ∃ ls : List Λ, S.trace c es = stepsOf c.state ls ∧ (S.final c es).state = after c.state ls := by
  induction es generalizing c with
  | nil => exact ⟨[],rfl,rfl⟩
  | cons e es ih =>
    obtain ⟨ls,ht,hf⟩ := ih (S.next c e).2
    rcases S.next_cases c e with ⟨hn,hs⟩ | ⟨l,hn,hs⟩
    · exact ⟨ls,by simp [trace,hn,ht,hs],by simp [final,hf,hs]⟩
    · exact ⟨l::ls,by simp [trace,hn,ht,hs,stepsOf],by simp [final,hf,hs]⟩

end System

/-! The rely/guarantee rule. -/

/-- An assertion that survives the accesses in `R`, given the invariant. -/
def Stable (I : σ → Prop) (R : σ → Λ → Prop) (P : σ → Prop) : Prop :=
  ∀ s l, I s → R s l → P s → P (apply l s)

/-- Started where `P` holds, among accesses in `R`, the program makes only accesses in `G`, and
ends where `Q` holds. -/
def Sat (I : σ → Prop) (R G : σ → Λ → Prop) :
    (σ → Prop) → Prog σ Λ α → (α → σ → Prop) → Prop
  | P, .ret a, Q => ∀ s, P s → Q a s
  | P, .act l next, Q => ∀ s, I s → P s → G s l ∧
      ∃ P', Stable I R P' ∧ P' (apply l s) ∧ Sat I R G P' (next s) Q

variable {I : σ → Prop} {R G : σ → Λ → Prop}

theorem Sat.mono {P P' : σ → Prop} {p : Prog σ Λ α} {Q : α → σ → Prop} (hP : ∀ s, P' s → P s)
    (h : Sat I R G P p Q) : Sat I R G P' p Q := by
  cases p with
  | ret a => exact fun s hs => h s (hP s hs)
  | act l next => exact fun s hI hs => h s hI (hP s hs)

/-- A part of the precondition that is about no state. -/
theorem Sat.of_fact {C : Prop} {P : σ → Prop} {p : Prog σ Λ α} {Q : α → σ → Prop}
    (h : C → Sat I R G P p Q) : Sat I R G (fun s => C ∧ P s) p Q := by
  cases p with
  | ret a => exact fun s hs => h hs.1 s hs.2
  | act l next => exact fun s hI hs => h hs.1 s hI hs.2

theorem Sat.imp {P : σ → Prop} {p : Prog σ Λ α} {Q : α → σ → Prop} {G' : σ → Λ → Prop}
    (h : Sat I R G P p Q) (hG : ∀ s l, G s l → G' s l) : Sat I R G' P p Q := by
  induction p generalizing P with
  | ret a => exact h
  | act l next ih =>
    intro s hI hs
    obtain ⟨hl,P',hst,hP',hrest⟩ := h s hI hs
    exact ⟨hG s l hl,P',hst,hP',ih s hrest⟩

theorem Sat.bind {P : σ → Prop} {p : Prog σ Λ α} {f : α → Prog σ Λ β} {Q : α → σ → Prop}
    {Q' : β → σ → Prop} (hp : Sat I R G P p Q) (hf : ∀ a, Sat I R G (Q a) (f a) Q') :
    Sat I R G P (p >>= f) Q' := by
  induction p generalizing P with
  | ret a => exact (hf a).mono (hp ·)
  | act l next ih =>
    intro s hI hs
    obtain ⟨hG,P',hst,hP',hrest⟩ := hp s hI hs
    exact ⟨hG,P',hst,hP',ih s hrest⟩

/-- The frame rule: a stable assertion is kept by a program whose accesses are guaranteed under it
and keep it. -/
theorem Sat.frame {p : Prog σ Λ α} {L : Λ → Prop} {P : σ → Prop} (hp : p.Emits L)
    (hP : Stable I R P) (hG : ∀ s l, I s → P s → L l → G s l)
    (hkeep : ∀ s l, I s → L l → P s → P (apply l s)) : Sat I R G P p fun _ => P := by
  induction p with
  | ret a => exact fun _ hs => hs
  | act l next ih =>
    exact fun s hI hs => ⟨hG s l hI hs hp.1,P,hP,hkeep s l hI hp.1 hs,ih s (hp.2 s)⟩

/-- A program all of whose accesses are guaranteed needs no assertion. -/
theorem Sat.of_emits {p : Prog σ Λ α} {P : Λ → Prop} (hp : p.Emits P)
    (hG : ∀ s l, I s → P l → G s l) : Sat I R G (fun _ => True) p fun _ _ => True :=
  Sat.frame hp (fun _ _ _ _ _ => trivial) (fun s l hI _ => hG s l hI) fun _ _ _ _ _ => trivial

/-- Each process carries an assertion under which the rest of it satisfies its guarantee, and
an exclusive one holds the lock. -/
def Pool.Safe (I : σ → Prop) (R G : Bool → σ → Λ → Prop) (c : Pool σ Λ) : Prop :=
  I c.state ∧ ∀ i e p, c.procs i = some (e,p) → (e = true → c.lock = some i) ∧
    ∃ P, Stable I (R e) P ∧ P c.state ∧ Sat I (R e) (G e) P p fun _ _ => True

theorem Pool.idle_safe {R G : Bool → σ → Λ → Prop} {s : σ} (h : I s) :
    (Pool.idle s : Pool σ Λ).Safe I R G := ⟨h,by simp [Pool.idle]⟩

/-- The obligations of a system: `G e` is what exclusive (`e = true`) and other programs do,
`R e` what they may see others do. -/
structure System.Sound (S : System π σ Λ) (I : σ → Prop) (R G : Bool → σ → Λ → Prop) : Prop where
  start : ∀ p s, I s → S.allowed p s → ∃ P, Stable I (R (S.exclusive p)) P ∧ P s ∧
    Sat I (R (S.exclusive p)) (G (S.exclusive p)) P (S.code p) fun _ _ => True
  /-- Two processes are never both exclusive. -/
  compat : ∀ e e' s l, I s → ¬ (e = true ∧ e' = true) → G e s l → R e' s l
  outside : ∀ e s l, I s → S.outside l → R e s l
  invariant : ∀ e s l, I s → G e s l → I (apply l s)
  invariant_outside : ∀ s l, I s → S.outside l → I (apply l s)

/-- What an access of a sound system is: guaranteed by its process, or from outside. -/
def System.Fair (S : System π σ Λ) (I : σ → Prop) (G : Bool → σ → Λ → Prop) (t : Step σ Λ) : Prop :=
  I t.pre ∧ ((∃ e, G e t.pre t.label) ∨ S.outside t.label = true)

namespace System.Sound
variable {S : System π σ Λ} {R G : Bool → σ → Λ → Prop}

theorem next_safe (hS : S.Sound I R G) {c : Pool σ Λ} (hc : c.Safe I R G) (e : Event π Λ) :
    (S.next c e).2.Safe I R G ∧ ∀ t ∈ (S.next c e).1, S.Fair I G t := by
  obtain ⟨hI,hprocs⟩ := hc
  cases e with
  | start i p =>
    by_cases hstart : (c.procs i).isNone ∧ S.allowed p c.state ∧
        (S.exclusive p → c.lock.isNone)
    · simp only [System.next,if_pos hstart]
      obtain ⟨hnone,hallowed,hlock⟩ := hstart
      refine ⟨⟨hI,?_⟩,by simp⟩
      intro j e q hj
      by_cases hij : j = i
      · subst hij
        simp only [Function.update_self] at hj
        cases hj
        obtain ⟨P,hst,hP,hsat⟩ := hS.start p c.state hI hallowed
        exact ⟨fun he => by simp [he],P,hst,hP,hsat⟩
      · simp only [Function.update_of_ne hij] at hj
        obtain ⟨hl,hrest⟩ := hprocs j e q hj
        refine ⟨fun he => ?_,hrest⟩
        -- the lock is held, so the new process is not exclusive
        have hj' := hl he
        have hp : ¬ (S.exclusive p = true) := by
          intro hp
          have := hlock hp
          rw [hj'] at this
          contradiction
        simp only [if_neg hp]
        exact hj'
    · simp only [System.next,if_neg hstart]
      exact ⟨⟨hI,hprocs⟩,by simp⟩
  | step i =>
    simp only [System.next]
    split
    · rename_i e l next hi
      obtain ⟨hl,P,-,hP,hsat⟩ := hprocs i e _ hi
      obtain ⟨hG,P',hst',hP',hrest⟩ := hsat c.state hI hP
      have hI' := hS.invariant e c.state l hI hG
      refine ⟨⟨hI',?_⟩,?_⟩
      · intro j e' q hj
        by_cases hij : j = i
        · subst hij
          simp only [Function.update_self] at hj
          cases hj
          exact ⟨hl,P',hst',hP',hrest⟩
        · simp only [Function.update_of_ne hij] at hj
          obtain ⟨hlj,Pj,hstj,hPj,hsatj⟩ := hprocs j e' q hj
          -- two exclusive processes would both hold the lock
          have hne : ¬ (e = true ∧ e' = true) := by
            rintro ⟨he,he'⟩
            have := (hl he).symm.trans (hlj he')
            exact hij (Option.some.inj this).symm
          exact ⟨hlj,Pj,hstj,hstj _ l hI (hS.compat e e' _ l hI hne hG) hPj,hsatj⟩
      · intro t ht
        cases ht
        exact ⟨hI,Or.inl ⟨e,hG⟩⟩
    · exact ⟨⟨hI,hprocs⟩,by simp⟩
  | crash i =>
    refine ⟨⟨hI,?_⟩,by simp [System.next]⟩
    intro j e q hj
    by_cases hij : j = i
    · subst hij
      simp [System.next] at hj
    · simp only [System.next,Function.update_of_ne hij] at hj
      obtain ⟨hl,hrest⟩ := hprocs j e q hj
      refine ⟨fun he => ?_,hrest⟩
      have hj' := hl he
      have hne : ¬ (c.lock = some i) := by
        rw [hj']
        exact fun h => hij (Option.some.inj h)
      simp only [System.next,if_neg hne]
      exact hj'
  | outside l =>
    simp only [System.next]
    split_ifs with hout
    · refine ⟨⟨hS.invariant_outside _ l hI hout,?_⟩,?_⟩
      · intro j e q hj
        obtain ⟨hl,P,hst,hP,hsat⟩ := hprocs j e q hj
        exact ⟨hl,P,hst,hst _ l hI (hS.outside e _ l hI hout) hP,hsat⟩
      · intro t ht
        cases ht
        exact ⟨hI,Or.inr hout⟩
    · exact ⟨⟨hI,hprocs⟩,by simp⟩

/-- Every access of every schedule is guaranteed, and the invariant holds throughout. -/
theorem trace_fair (hS : S.Sound I R G) (es : List (Event π Λ)) {c : Pool σ Λ}
    (hc : c.Safe I R G) : (S.final c es).Safe I R G ∧ ∀ t ∈ S.trace c es, S.Fair I G t := by
  induction es generalizing c with
  | nil => exact ⟨hc,by simp [System.trace]⟩
  | cons e es ih =>
    obtain ⟨hc',hfair⟩ := hS.next_safe hc e
    obtain ⟨hfin,hrest⟩ := ih hc'
    refine ⟨hfin,fun t ht => ?_⟩
    rcases List.mem_append.mp ht with h | h
    · exact hfair t (by simpa using h)
    · exact hrest t h

/-- What every program makes at all, every access of a schedule is. -/
theorem emits {P : Bool → Λ → Prop} (hcode : ∀ p, (S.code p).Emits (P (S.exclusive p))) :
    S.Sound (fun _ => True) (fun _ _ _ => True) fun e _ l => P e l where
  start p _ _ _ := ⟨fun _ => True,fun _ _ _ _ _ => trivial,trivial,
    Sat.of_emits (hcode p) fun _ _ _ h => h⟩
  compat _ _ _ _ _ _ _ := trivial
  outside _ _ _ _ _ := trivial
  invariant _ _ _ _ _ := trivial
  invariant_outside _ _ _ _ := trivial

end System.Sound

end Interleaving
