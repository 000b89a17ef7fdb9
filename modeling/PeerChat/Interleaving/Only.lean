import PeerChat.Interleaving.Log

/-! A system that starts some of its programs only. Runs that start no others are the same in it, so
what is known of the programs that a run starts can be used of the run. -/
namespace Interleaving

variable {π σ Λ : Type} [Acts Λ σ]

namespace System
variable (S : System π σ Λ) (ok : π → Prop) [DecidablePred ok]

/-- The system without the programs that are not `ok`. -/
def only : System π σ Λ := { S with allowed := fun p s => S.allowed p s && ok p }

variable {S ok}

omit [Acts Λ σ] in
/-- A program that may start is one of these. -/
lemma only_allowed {p : π} {s : σ} (h : (S.only ok).allowed p s = true) :
    S.allowed p s = true ∧ ok p := by
  unfold only at h
  rw [Bool.and_eq_true,decide_eq_true_eq] at h
  exact h

lemma only_next {c : Pool σ Λ} {e : Event π Λ} (h : ∀ i p, e = .start i p → ok p) :
    (S.only ok).next c e = S.next c e := by
  cases e with
  | start i p =>
    have hok : (S.only ok).allowed p c.state = S.allowed p c.state := by
      change (S.allowed p c.state && decide (ok p)) = _
      rw [decide_eq_true (h i p rfl),Bool.and_true]
    simp only [next,hok]
    rfl
  | step i => rfl
  | crash i => rfl
  | outside l => rfl

theorem only_final {es : List (Event π Λ)} (h : ∀ i p, .start i p ∈ es → ok p) (c : Pool σ Λ) :
    (S.only ok).final c es = S.final c es := by
  induction es generalizing c with
  | nil => rfl
  | cons e es ih =>
    have hnext : (S.only ok).next c e = S.next c e :=
      only_next fun i p he => h i p (he ▸ List.mem_cons_self ..)
    rw [final,final,hnext]
    exact ih (fun i p hp => h i p (List.mem_cons_of_mem _ hp)) _

theorem only_trace {es : List (Event π Λ)} (h : ∀ i p, .start i p ∈ es → ok p) (c : Pool σ Λ) :
    (S.only ok).trace c es = S.trace c es := by
  induction es generalizing c with
  | nil => rfl
  | cons e es ih =>
    have hnext : (S.only ok).next c e = S.next c e :=
      only_next fun i p he => h i p (he ▸ List.mem_cons_self ..)
    rw [trace,trace,hnext,ih fun i p hp => h i p (List.mem_cons_of_mem _ hp)]

/-- What each program makes, whatever the others do: an access of a run is one of a program that the
run has started, or from outside. -/
theorem trace_started {P : π → Λ → Prop}
    (hcode : ∀ p, Sat (fun _ => True) (fun _ _ => True) (fun _ => P p) (fun _ => True) (S.code p)
      fun _ _ => True) (s : σ) (es : List (Event π Λ)) : ∀ t ∈ S.trace (.idle s) es,
      (∃ i p, .start i p ∈ es ∧ P p t.label) ∨ S.outside t.label = true := by
  classical
  let started (p : π) : Prop := ∃ i, .start i p ∈ es
  have hstarted : ∀ i p, .start i p ∈ es → started p := fun i p h => ⟨i,h⟩
  have hS : (S.only started).Sound (fun _ => True) (fun _ _ _ => True)
      fun _ _ l => ∃ p, started p ∧ P p l :=
    { start := fun p s _ hp => ⟨fun _ => True,fun _ _ _ _ _ => trivial,trivial,
        (hcode p).imp fun _ _ h => ⟨p,(only_allowed hp).2,h⟩⟩
      compat := fun _ _ _ _ _ _ _ => trivial
      outside := fun _ _ _ _ _ => trivial
      invariant := fun _ _ _ _ _ => trivial
      invariant_outside := fun _ _ _ _ => trivial }
  intro t ht
  rw [← only_trace hstarted] at ht
  obtain ⟨-,⟨-,p,⟨i,hp⟩,h⟩ | hout⟩ := (hS.trace_fair es (Pool.idle_safe trivial)).2 t ht
  · exact Or.inl ⟨i,p,hp,h⟩
  · exact Or.inr hout

end System
end Interleaving
