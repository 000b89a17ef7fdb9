import PeerChat.Interleaving.Log

/-! Programs that may raise. The rules for a sequence, and for a handler, treat the two ends of a
program apart. -/
namespace Interleaving

variable {σ Λ ε α β : Type}

/-- A program that ends with a result or an exception. -/
abbrev Raising (σ Λ ε α : Type) := ExceptT ε (Prog σ Λ) α

namespace Raising

/-- One access, with what is read from the state it has found. -/
def access (l : Λ) (f : σ → Except ε α) : Raising σ Λ ε α := ExceptT.mk (.act l fun s => .ret (f s))

@[simp] theorem run_access (l : Λ) (f : σ → Except ε α) :
    (access l f).run = .act l fun s => .ret (f s) := rfl

/-- What comes after a program. -/
def onOk (f : α → Raising σ Λ ε β) : Except ε α → Prog σ Λ (Except ε β)
  | .ok a => (f a).run
  | .error e => .ret (.error e)

/-- What handles an exception of it. -/
def onError (handle : ε → Raising σ Λ ε α) : Except ε α → Prog σ Λ (Except ε α)
  | .ok a => .ret (.ok a)
  | .error e => (handle e).run

theorem run_bind (p : Raising σ Λ ε α) (f : α → Raising σ Λ ε β) :
    (p >>= f).run = p.run >>= onOk f := by
  refine congrArg (Prog.bind p.run) (funext fun r => ?_)
  cases r <;> rfl

theorem run_tryCatch (p : Raising σ Λ ε α) (handle : ε → Raising σ Λ ε α) :
    (tryCatch p handle).run = p.run >>= onError handle := by
  refine congrArg (Prog.bind p.run) (funext fun r => ?_)
  cases r <;> rfl

end Raising

/-- What holds where a program returns, and where it raises. -/
def Ends (Q : α → σ → Prop) (E : ε → σ → Prop) : Except ε α → σ → Prop
  | .ok a, s => Q a s
  | .error e, s => E e s

section
variable [Acts Λ σ] {I P : σ → Prop} {R G : σ → Λ → Prop} {p : Raising σ Λ ε α}
  {Q : α → σ → Prop} {E : ε → σ → Prop}

/-- One access. What its end says is stable, and holds after it. -/
theorem Sat.access {l : Λ} {f : σ → Except ε α} (hG : ∀ s, P s → G s l)
    (hok : ∀ s a, P s → f s = .ok a → Stable I R (Q a) ∧ Q a (apply l s))
    (herror : ∀ s e, P s → f s = .error e → Stable I R (E e) ∧ E e (apply l s)) :
    Sat I R G P (Raising.access l f).run (Ends Q E) := by
  intro s _ hs
  have hend : Stable I R (Ends Q E (f s)) ∧ Ends Q E (f s) (apply l s) := by
    cases hf : f s with
    | ok a => exact hok s a hs hf
    | error e => exact herror s e hs hf
  exact ⟨hG s hs,Ends Q E (f s),hend.1,hend.2,fun _ h => h⟩

theorem Sat.andThen {f : α → Raising σ Λ ε β} {Q' : β → σ → Prop}
    (hp : Sat I R G P p.run (Ends Q E)) (hf : ∀ a, Sat I R G (Q a) (f a).run (Ends Q' E)) :
    Sat I R G P (p >>= f).run (Ends Q' E) := by
  rw [Raising.run_bind]
  refine hp.bind fun r => ?_
  cases r with
  | ok a => exact hf a
  | error e => exact fun _ he => he

theorem Sat.handled {handle : ε → Raising σ Λ ε α} {E' : ε → σ → Prop}
    (hp : Sat I R G P p.run (Ends Q E)) (hhandle : ∀ e, Sat I R G (E e) (handle e).run (Ends Q E')) :
    Sat I R G P (tryCatch p handle).run (Ends Q E') := by
  rw [Raising.run_tryCatch]
  refine hp.bind fun r => ?_
  cases r with
  | ok a => exact fun _ ha => ha
  | error e => exact hhandle e

end

namespace Prog
variable {G : List (Step σ Λ) → Step σ Λ → Prop} {h : List (Step σ Λ)} {p : Raising σ Λ ε α}
  {E : List (Step σ Λ) → ε → Prop}

/-- Nothing is said of a result. -/
def Raises (E : List (Step σ Λ) → ε → Prop) (u : List (Step σ Λ)) : Except ε α → Prop
  | .ok _ => True
  | .error e => E u e

theorem Traced.andThen {f : α → Raising σ Λ ε β} (hp : p.run.Traced G (Raises E) h)
    (hf : ∀ u a, h <+: u → (f a).run.Traced G (Raises E) u) :
    (p >>= f).run.Traced G (Raises E) h := by
  rw [Raising.run_bind]
  have hpast := (hp.and (Traced.extends p.run h)).weaken fun _ _ hG => hG.1
  refine hpast.bind fun u r hr => ?_
  cases r with
  | ok a => exact hf u a hr.2
  | error e => exact hr.1

theorem Traced.handled {handle : ε → Raising σ Λ ε α} (hp : p.run.Traced G (Raises E) h)
    (hhandle : ∀ u e, E u e → (handle e).run.Traced G (Raises E) u) :
    (tryCatch p handle).run.Traced G (Raises E) h := by
  rw [Raising.run_tryCatch]
  refine hp.bind fun u r hr => ?_
  cases r with
  | ok a => trivial
  | error e => exact hhandle u e hr

end Prog
end Interleaving
