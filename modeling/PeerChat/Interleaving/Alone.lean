import PeerChat.Interleaving.Program

/-! Programs that run alone, from their beginning to their end. -/
namespace Interleaving.Prog
variable {σ Λ α β : Type} [Acts Λ σ]

@[simp] theorem run_ret (a : α) (s : σ) : (ret a : Prog σ Λ α).run s = s := rfl

@[simp] theorem value_ret (a : α) (s : σ) : (ret a : Prog σ Λ α).value s = a := rfl

@[simp] theorem run_act (l : Λ) (next : σ → Prog σ Λ α) (s : σ) :
    (act l next).run s = (next s).run (apply l s) := rfl

@[simp] theorem value_act (l : Λ) (next : σ → Prog σ Λ α) (s : σ) :
    (act l next).value s = (next s).value (apply l s) := rfl

theorem run_bind (p : Prog σ Λ α) (f : α → Prog σ Λ β) (s : σ) :
    (p >>= f).run s = (f (p.value s)).run (p.run s) := by
  induction p generalizing s with
  | ret a => rfl
  | act l next ih => exact ih s (apply l s)

theorem value_bind (p : Prog σ Λ α) (f : α → Prog σ Λ β) (s : σ) :
    (p >>= f).value s = (f (p.value s)).value (p.run s) := by
  induction p generalizing s with
  | ret a => rfl
  | act l next ih => exact ih s (apply l s)

/-- The steps of the whole execution. -/
def steps : Prog σ Λ α → σ → List (Step σ Λ)
  | .ret _, _ => []
  | .act l next, s => ⟨l,s⟩ :: (next s).steps (apply l s)

/-- Every one of them has the property of the program's accesses. -/
theorem Emits.steps {P : Λ → Prop} {p : Prog σ Λ α} (hp : p.Emits P) (s : σ) :
    ∀ t ∈ p.steps s, P t.label := by
  induction p generalizing s with
  | ret a =>
    intro t ht
    cases ht
  | act l next ih =>
    intro t ht
    cases ht with
    | head => exact hp.1
    | tail _ ht => exact ih s (hp.2 s) (apply l s) t ht

end Interleaving.Prog
