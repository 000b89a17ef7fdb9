import PeerChat.Interleaving.Log

/-! One writer at a time. What an exclusive process knows of the state from its own past holds until
its next access, where the accesses of the others keep it; the others never make the accesses that
are reserved to exclusive programs. -/
namespace Interleaving

variable {π σ Λ : Type} [Acts Λ σ]

/-- The obligations: `I` holds always, and `K` is what an exclusive process knows. -/
structure System.Reserved (S : System π σ Λ) (G : List (Step σ Λ) → Step σ Λ → Prop)
    (I : σ → Prop) (K : List (Step σ Λ) → σ → Prop) (reserved : Λ → Bool) : Prop where
  traced : ∀ p, (S.code p).Traced G (fun _ _ => True) []
  code : ∀ p, S.exclusive p = false → (S.code p).Emits fun l => reserved l = false
  outside : ∀ l, S.outside l = true → reserved l = false
  start : ∀ s, I s → K [] s
  own : ∀ h t, I t.pre → K h t.pre → G h t → I t.post ∧ K (h ++ [t]) t.post
  other : ∀ l s, reserved l = false → I s → I (apply l s) ∧ ∀ h, K h s → K h (apply l s)

/-- An exclusive process holds the lock and has its knowledge; the others keep off. -/
def Pool.Keeps (I : σ → Prop) (K : List (Step σ Λ) → σ → Prop) (reserved : Λ → Bool)
    (c : Pool σ Λ) (past : ℕ → List (Step σ Λ)) : Prop :=
  I c.state ∧ ∀ i e p, c.procs i = some (e,p) →
    (e = true → c.lock = some i ∧ K (past i) c.state) ∧
    (e = false → p.Emits fun l => reserved l = false)

namespace System.Reserved
variable {S : System π σ Λ} {G : List (Step σ Λ) → Step σ Λ → Prop} {I : σ → Prop}
  {K : List (Step σ Λ) → σ → Prop} {reserved : Λ → Bool}

lemma next_keeps (hS : S.Reserved G I K reserved) {c : Pool σ Λ} {past : ℕ → List (Step σ Λ)}
    (hknown : Known G (fun _ _ => True) c past) (hc : c.Keeps I K reserved past) (e : Event π Λ) :
    (S.next c e).2.Keeps I K reserved (pastOf past e (S.next c e).1) ∧
      ∀ r ∈ S.record c past e, I r.step.pre ∧
        (reserved r.step.label = true → K r.before r.step.pre) := by
  obtain ⟨hI,hprocs⟩ := hc
  cases e with
  | start i p =>
    by_cases hstart : (c.procs i).isNone ∧ S.allowed p c.state ∧ (S.exclusive p → c.lock.isNone)
    · simp only [record,System.next,if_pos hstart,Option.map_none,pastOf]
      refine ⟨⟨hI,?_⟩,by simp⟩
      intro j e q hj
      by_cases hij : j = i
      · subst hij
        have hnone : past j = [] := by
          have hj' := hknown j
          rw [Option.isNone_iff_eq_none.mp hstart.1] at hj'
          exact hj'
        simp only [Function.update_self,Option.some.injEq,Prod.mk.injEq] at hj
        obtain ⟨rfl,rfl⟩ := hj
        refine ⟨fun he => ?_,fun he => hS.code p he⟩
        rw [if_pos he,hnone]
        exact ⟨rfl,hS.start _ hI⟩
      · simp only [Function.update_of_ne hij] at hj
        obtain ⟨hlock,hemits⟩ := hprocs j e q hj
        refine ⟨fun he => ?_,hemits⟩
        -- the lock is held, so the new process is not exclusive
        have hp : ¬ S.exclusive p = true := by
          intro hp
          have hfree := hstart.2.2 hp
          rw [(hlock he).1] at hfree
          cases hfree
        rw [if_neg hp]
        exact hlock he
    · simp only [record,System.next,if_neg hstart,Option.map_none,pastOf]
      exact ⟨⟨hI,hprocs⟩,by simp⟩
  | step i =>
    rcases S.next_step c i with ⟨e,l,next,hi,hn⟩ | hn
    · have htraced := hknown i
      rw [hi] at htraced
      have hG := (htraced c.state).1
      obtain ⟨hlock,hemits⟩ := hprocs i e _ hi
      have hstep : I (apply l c.state) ∧ ((reserved l = false) ∨ (e = true ∧ K (past i) c.state)) := by
        cases e with
        | true => exact ⟨(hS.own _ ⟨l,c.state⟩ hI (hlock rfl).2 hG).1,Or.inr ⟨rfl,(hlock rfl).2⟩⟩
        | false => exact ⟨(hS.other l _ (hemits rfl).1 hI).1,Or.inl (hemits rfl).1⟩
      simp only [record,hn,pastOf,Event.actor,Option.map_some,Option.getD_some]
      refine ⟨⟨hstep.1,?_⟩,?_⟩
      · intro j e' q hj
        by_cases hij : j = i
        · subst hij
          simp only [Function.update_self,Option.some.injEq,Prod.mk.injEq] at hj ⊢
          obtain ⟨rfl,rfl⟩ := hj
          exact ⟨fun he => ⟨(hlock he).1,(hS.own _ ⟨l,c.state⟩ hI (hlock he).2 hG).2⟩,
            fun he => (hemits he).2 _⟩
        · simp only [Function.update_of_ne hij] at hj ⊢
          obtain ⟨hlock',hemits'⟩ := hprocs j e' q hj
          refine ⟨fun he' => ⟨(hlock' he').1,?_⟩,hemits'⟩
          rcases hstep.2 with hl | ⟨he,-⟩
          · exact (hS.other l _ hl hI).2 _ (hlock' he').2
          · -- two exclusive processes would both hold the lock
            have := (hlock he).1.symm.trans (hlock' he').1
            exact absurd (Option.some.inj this).symm hij
      · intro r hr
        obtain rfl := Option.some.inj hr
        refine ⟨hI,fun hres => ?_⟩
        rcases hstep.2 with hl | ⟨-,hK⟩
        · rw [hl] at hres
          cases hres
        · exact hK
    · simp only [record,hn,pastOf,Option.map_none]
      exact ⟨⟨hI,hprocs⟩,by simp⟩
  | crash i =>
    simp only [record,System.next,Option.map_none,pastOf]
    refine ⟨⟨hI,?_⟩,by simp⟩
    intro j e q hj
    by_cases hij : j = i
    · subst hij
      simp at hj
    · simp only [Function.update_of_ne hij] at hj ⊢
      obtain ⟨hlock,hemits⟩ := hprocs j e q hj
      refine ⟨fun he => ⟨?_,(hlock he).2⟩,hemits⟩
      have hne : ¬ c.lock = some i := by
        rw [(hlock he).1]
        exact fun h => hij (Option.some.inj h)
      rw [if_neg hne]
      exact (hlock he).1
  | outside l =>
    simp only [record,System.next]
    split_ifs with hout
    · have hl := hS.outside l hout
      refine ⟨⟨(hS.other l _ hl hI).1,?_⟩,?_⟩
      · intro j e q hj
        obtain ⟨hlock,hemits⟩ := hprocs j e q hj
        exact ⟨fun he => ⟨(hlock he).1,(hS.other l _ hl hI).2 _ (hlock he).2⟩,hemits⟩
      · intro r hr
        obtain rfl := Option.some.inj hr
        refine ⟨hI,fun hres => ?_⟩
        rw [hl] at hres
        cases hres
    · exact ⟨⟨hI,hprocs⟩,by simp⟩

/-- At every reserved access its process has its knowledge. -/
theorem log_keeps (hS : S.Reserved G I K reserved) (es : List (Event π Λ)) {c : Pool σ Λ}
    {past : ℕ → List (Step σ Λ)} (hknown : Known G (fun _ _ => True) c past)
    (hc : c.Keeps I K reserved past) : I (S.final c es).state ∧ ∀ r ∈ S.logFrom c past es,
      I r.step.pre ∧ (reserved r.step.label = true → K r.before r.step.pre) := by
  induction es generalizing c past with
  | nil => exact ⟨hc.1,by simp [logFrom]⟩
  | cons e es ih =>
    obtain ⟨hc',hrec⟩ := hS.next_keeps hknown hc e
    obtain ⟨hfinal,hrest⟩ := ih (hknown.next hS.traced e).1 hc'
    refine ⟨hfinal,fun r hr => ?_⟩
    rcases List.mem_append.mp hr with h | h
    · exact hrec r (by simpa using h)
    · exact hrest r h

omit [Acts Λ σ] in
theorem idle_keeps {s : σ} (h : I s) :
    (Pool.idle s : Pool σ Λ).Keeps I K reserved fun _ => [] := ⟨h,by simp [Pool.idle]⟩

end System.Reserved
end Interleaving
