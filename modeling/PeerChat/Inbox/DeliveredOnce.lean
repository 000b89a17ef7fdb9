import PeerChat.Inbox.StatusSteps

/-! The life of a message over whole runs: acknowledgement is final, no message returns to the
unread state, and at most one automatic delivery takes it out of there. -/
namespace PeerChat
open Python Interleaving

lemma StatusStep.of_consumed {op : Op} {b : Option Status}
    (h : StatusStep op (some .consumed) b) : b = some .consumed := by
  rcases h with h | h
  · exact h
  · split at h
    · exact absurd h.1 (by simp)
    · exact h.2
    · exact h.2
    · exact h.2
    · obtain ⟨⟨st,hst,hne⟩,-⟩ := h
      cases hst
      contradiction
    · exact absurd h.1 (by simp)
    · exact absurd h.1 (by simp)
    · exact absurd h.1 (by simp)
    · exact absurd h.1 (by simp)
    · exact h.elim

/-- Only the first insertion of a message makes it unread. -/
lemma StatusStep.to_received {op : Op} {a : Option Status} (h : StatusStep op a (some .received)) :
    a = some .received ∨ a = none ∧
      ∃ peer id body mode hops, op = .inbox (.accept peer id body mode hops) := by
  rcases h with h | h
  · exact Or.inl h.symm
  · right
    split at h
    · exact ⟨h.1,_,_,_,_,_,rfl⟩
    · exact absurd h.2 (by simp)
    · exact absurd h.2 (by simp)
    · exact absurd h.2 (by simp)
    · rename_i outcome _
      cases outcome <;> exact absurd h.2 (by simp [Store.Outcome.toStatus])
    · rcases h.2 with h | h <;> simp at h
    · exact absurd h.2 (by simp)
    · exact absurd h.2 (by simp)
    · exact absurd h.2 (by simp)
    · exact h.elim

/-- A message that has left the unread state stays out of it. -/
lemma StatusStep.spent {op : Op} {st : Status} {b : Option Status} (hst : st ≠ .received)
    (h : StatusStep op (some st) b) : ∃ st', b = some st' ∧ st' ≠ .received := by
  cases b with
  | none =>
    rcases h with h | h
    · cases h
    · split at h <;> simp at h
  | some st' =>
    refine ⟨st',rfl,?_⟩
    rintro rfl
    rcases h.to_received with h | ⟨h,-⟩
    · exact hst (Option.some.inj h)
    · cases h

/-- Handing over takes an unread message, and only the two automatic transactions do it. -/
lemma StatusStep.to_handed {op : Op} {a : Option Status} {st : Status}
    (hst : st = .hookOffered ∨ st = .forwarding) (hne : some st ≠ a)
    (h : StatusStep op a (some st)) : a = some .received ∧ op.automatic = true := by
  rcases h with he | h
  · exact absurd he hne
  · split at h
    · rcases hst with rfl | rfl <;> exact absurd h.2 (by decide)
    · rcases hst with rfl | rfl <;> exact absurd h.2 (by decide)
    · rcases hst with rfl | rfl <;> exact absurd h.2 (by decide)
    · rcases hst with rfl | rfl <;> exact absurd h.2 (by decide)
    · rename_i outcome _
      rcases hst with rfl | rfl <;> cases outcome <;> exact absurd h.2 (by decide)
    · exact ⟨h.1,rfl⟩
    · exact ⟨h.1,rfl⟩
    · rcases hst with rfl | rfl <;> exact absurd h.2 (by decide)
    · rcases hst with rfl | rfl <;> exact absurd h.2 (by decide)
    · exact h.elim

/-- The step moves the message to `hook_offered` or `forwarding`. -/
def HandsOver (key : Str × Str) (t : Step World Op) : Prop :=
  t.post.store.status key ≠ t.pre.store.status key ∧
    (t.post.store.status key = some .hookOffered ∨ t.post.store.status key = some .forwarding)

instance (key : Str × Str) : DecidablePred (HandsOver key) :=
  fun _ => inferInstanceAs (Decidable (_ ∧ _))

lemma HandsOver.exists_status {key : Str × Str} {t : Step World Op} (h : HandsOver key t) :
    ∃ st, t.post.store.status key = some st ∧ (st = .hookOffered ∨ st = .forwarding) := by
  rcases h.2 with hb | hb
  · exact ⟨_,hb,Or.inl rfl⟩
  · exact ⟨_,hb,Or.inr rfl⟩

lemma HandsOver.step {key : Str × Str} {t : Step World Op} (h : HandsOver key t) :
    t.pre.store.status key = some .received ∧ t.label.automatic = true := by
  obtain ⟨st,hb,hst⟩ := h.exists_status
  have hstep := status_step t.label t.pre key
  change StatusStep t.label _ (t.post.store.status key) at hstep
  rw [hb] at hstep
  exact hstep.to_handed hst (hb ▸ h.1)

/-- Once out of the unread state a message is never handed over. -/
lemma handsOver_count_spent (key : Str × Str) (ls : List Op) {w : World} {st : Status}
    (hw : w.store.status key = some st) (hst : st ≠ .received) :
    (stepsOf w ls).countP (HandsOver key ·) = 0 := by
  induction ls generalizing w st with
  | nil => rfl
  | cons l ls ih =>
    have hnot : ¬ HandsOver key ⟨l,w⟩ := by
      intro h
      have := h.step.1
      rw [hw] at this
      exact hst (Option.some.inj this)
    have hstep := status_step l w key
    rw [hw] at hstep
    obtain ⟨st',hst',hne⟩ := hstep.spent hst
    simp only [stepsOf,List.countP_cons,hnot,decide_false,ih hst' hne]
    rfl

lemma handsOver_count_le (key : Str × Str) (ls : List Op) (w : World) :
    (stepsOf w ls).countP (HandsOver key ·) ≤ 1 := by
  induction ls generalizing w with
  | nil => simp [stepsOf]
  | cons l ls ih =>
    by_cases h : HandsOver key ⟨l,w⟩
    · -- the message is spent by this step
      obtain ⟨st,hb,hst⟩ := h.exists_status
      have hne : st ≠ .received := by
        rcases hst with rfl | rfl <;> decide
      have hz := handsOver_count_spent key ls (w := apply l w) hb hne
      simp only [stepsOf,List.countP_cons,hz,h,decide_true,if_true]
      omega
    · have hi := ih (apply l w)
      simp only [stepsOf,List.countP_cons,h,decide_false]
      simpa using hi

lemma consumed_after (key : Str × Str) (ls : List Op) {w : World}
    (h : w.store.status key = some .consumed) : (after w ls).store.status key = some .consumed := by
  let P : World → Prop := fun w => w.store.status key = some .consumed
  refine after_induction (show P w from h) fun l _ w (hw : w.store.status key = _) => ?_
  change (apply l w).store.status key = _
  have hstep := status_step l w key
  rw [hw] at hstep
  exact hstep.of_consumed

/-- In every run of any number of the bridge's processes, from any state: an acknowledged message
stays acknowledged; a message becomes unread only by its first insertion; and it is handed over
automatically at most once, by a hook's offer or by the queue mode's claim. -/
theorem delivered_once (U : Interp) (honest : Bool) (c : Pool World Op) (es : Schedule)
    (key : Str × Str) :
    (c.state.store.status key = some .consumed →
      ((bridge U honest).final c es).state.store.status key = some .consumed) ∧
    (∀ t ∈ (bridge U honest).trace c es, t.post.store.status key = some .received →
      t.pre.store.status key = some .received ∨ t.pre.store.status key = none ∧
        ∃ peer id body mode hops, t.label = .inbox (.accept peer id body mode hops)) ∧
    (∀ t ∈ (bridge U honest).trace c es, HandsOver key t →
      t.pre.store.status key = some .received ∧ t.label.automatic = true) ∧
    ((bridge U honest).trace c es).countP (HandsOver key ·) ≤ 1 := by
  obtain ⟨ls,htrace,hfinal⟩ := (bridge U honest).exists_labels c es
  refine ⟨?_,?_,fun t _ h => h.step,?_⟩
  · intro h
    rw [hfinal]
    exact consumed_after key ls h
  · intro t _ h
    have hstep := status_step t.label t.pre key
    change StatusStep t.label _ (t.post.store.status key) at hstep
    rw [h] at hstep
    exact hstep.to_received
  · rw [htrace]
    exact handsOver_count_le key ls c.state

end PeerChat
