import PeerChat.System.Frame

/-! What a single access does to the two wake records. -/
namespace PeerChat.Wake
open Python Interleaving

/-- The wake with this id is decided: `last_wake` has it in a state of the highest rank. -/
def decided (k : Meta) (id : Str) : Bool :=
  k.lastWake.any fun last => last.id = id && rank last.state = 2

lemma rank_le (state : WakeState) : rank state ≤ 2 := by cases state <;> decide

lemma producing_iff (state : WakeState) : producing state = true ↔ rank state < 2 := by
  cases state <;> decide

/-- The marker that a settled record leaves: its own, where its state is a producer's. -/
lemma settle_marker {r : LastWake} {k : Meta} {p : WakePending}
    (h : (settle r k).wakePending = some p) : p.id = r.id ∧ producing r.state = true := by
  simp only [settle] at h
  by_cases hprod : producing r.state = true
  · rw [if_pos hprod] at h
    cases h
    exact ⟨rfl,hprod⟩
  · rw [if_neg hprod] at h
    cases h

/-- A transition is refused, and leaves the marker and the recorded state alone, or it settles. -/
theorem record_cases (now : Time) (id : Str) (state : WakeState) (e : Evidence) (k : Meta) :
    (∃ last last', k.lastWake = some last ∧ last.id = id ∧ refused state last = true ∧
      (record now id state e k).wakePending = k.wakePending ∧
      (record now id state e k).lastWake = some last' ∧ last'.id = last.id ∧
      last'.state = last.state) ∨
    (∀ last, k.lastWake = some last → last.id = id → refused state last = false) ∧
      ∃ r k₀, record now id state e k = settle r k₀ ∧ r.id = id ∧ r.state = state := by
  cases hl : k.lastWake with
  | none => exact Or.inr ⟨by simp,_,_,by simp only [record,hl]; rfl,rfl,rfl⟩
  | some last =>
    by_cases hid : last.id = id
    · by_cases hr : refused state last = true
      · left
        subst hid
        simp only [record,hl,hr,if_true]
        split_ifs
        · exact ⟨last,_,rfl,rfl,hr,rfl,rfl,rfl,rfl⟩
        · exact ⟨last,last,rfl,rfl,hr,rfl,hl,rfl,rfl⟩
      · right
        let counts :=
          if rank last.state < rank state then bump state k.wakeCounts else k.wakeCounts
        refine ⟨?_,advance now state e last,{ k with wakeCounts := counts },?_,hid,rfl⟩
        · rintro last' h -
          cases h
          simpa using hr
        · simp only [record,hl,hid,hr,if_true]
          rfl
    · right
      refine ⟨?_,fresh now id state e,{ k with wakeCounts := bump state k.wakeCounts },?_,rfl,rfl⟩
      · rintro last' h hid'
        cases h
        exact absurd hid' hid
      · simp only [record,hl,hid,if_false]

/-- Which states the rule refuses after a record. -/
lemma refused_iff (state : WakeState) (last : LastWake) : refused state last = true ↔
    rank state < rank last.state ∨ (rank state = 2 ∧ rank last.state = 2) := by
  simp only [refused,Bool.or_eq_true,Bool.and_eq_true,decide_eq_true_eq]
  omega

/-- A decision settles, and so clears the marker, unless the wake is decided already. -/
theorem record_decision (now : Time) (id : Str) {state : WakeState} (e : Evidence) (k : Meta)
    (hstate : rank state = 2) :
    (record now id state e k).wakePending = if decided k id then k.wakePending else none := by
  rcases record_cases now id state e k with ⟨last,-,hl,hid,href,hp,-⟩ | ⟨hnot,r,k₀,hrec,-,hr⟩
  · have hd : decided k id = true := by
      have := (refused_iff ..).mp href
      have := rank_le last.state
      simp only [decided,hl,Option.any_some,hid,decide_true,Bool.true_and,decide_eq_true_eq]
      omega
    rw [if_pos hd,hp]
  · have hd : ¬ decided k id = true := by
      intro hd
      obtain ⟨last,hl,hboth⟩ := (Option.any_eq_true ..).mp hd
      simp only [Bool.and_eq_true,decide_eq_true_eq] at hboth
      have := hnot last hl hboth.1
      rw [(refused_iff ..).mpr (Or.inr ⟨hstate,hboth.2⟩)] at this
      cases this
    have hprod : ¬ producing r.state = true := by
      rw [producing_iff,hr,hstate]
      omega
    rw [if_neg hd,hrec,settle,if_neg hprod]

/-- What an active hook records of a valid marker: a decision. -/
lemma activeHook_record (now : Time) {payload : HookPayload} {k : Meta} {pending : WakePending}
    (hactive : payload.event.active = true) (hp : k.wakePending = some pending)
    (hid : validId pending.id = true) : ∃ state e, rank state = 2 ∧
      activeHook now payload k = record now pending.id state e k := by
  simp only [activeHook,hactive,hp,hid,not_true_eq_false,if_false]
  split_ifs
  · exact ⟨.activated,_,rfl,rfl⟩
  · exact ⟨.raced,_,rfl,rfl⟩
  · exact ⟨.cancelled,_,rfl,rfl⟩

/-- An active hook does nothing, or decides the wake of the marker. -/
lemma activeHook_eq (now : Time) (payload : HookPayload) (k : Meta) :
    activeHook now payload k = k ∨ ∃ p state e, k.wakePending = some p ∧ rank state = 2 ∧
      activeHook now payload k = record now p.id state e k := by
  by_cases hactive : payload.event.active = true
  · cases hp : k.wakePending with
    | none => exact Or.inl (by simp [activeHook,hp])
    | some p =>
      by_cases hid : validId p.id = true
      · obtain ⟨state,e,hstate,heq⟩ := activeHook_record now hactive hp hid
        exact Or.inr ⟨p,state,e,rfl,hstate,heq⟩
      · exact Or.inl (by simp [activeHook,hactive,hp,hid])
  · exact Or.inl (by simp [activeHook,hactive])

/-- A producer's record does nothing, or makes one transition. -/
lemma recordWake_eq (now : Time) (marker : Marker) (k : Meta) : recordWake now marker k = k ∨
    ∃ state e, recordWake now marker k = record now marker.id state e k := by
  simp only [recordWake]
  split_ifs
  · exact Or.inl rfl
  · split
    · exact Or.inr ⟨_,_,rfl⟩
    · split_ifs
      · exact Or.inl rfl
      · exact Or.inr ⟨_,_,rfl⟩
      · exact Or.inr ⟨_,_,rfl⟩

/-- An active hook releases a valid marker exactly if the wake is not decided already. -/
theorem activeHook_releases_iff (now : Time) {payload : HookPayload} {k : Meta}
    {pending : WakePending} (hactive : payload.event.active = true)
    (hp : k.wakePending = some pending) (hid : validId pending.id = true) :
    (activeHook now payload k).wakePending = none ↔ decided k pending.id = false := by
  obtain ⟨state,e,hstate,heq⟩ := activeHook_record now hactive hp hid
  rw [heq,record_decision now pending.id e k hstate]
  split_ifs with hd
  · simp [hd,hp]
  · simpa using hd

/-- What one access does to the wake records. -/
def Change (op : Op) (w : World) (k' : Meta) : Prop :=
  k'.lastWake = w.store.keys.lastWake ∧
    (k'.wakePending = w.store.keys.wakePending ∨ k'.wakePending = none ∨
      ∃ config row, op = .inbox (.claimWake config) ∧
        claimed w.machine config w.store = some row ∧
        k'.wakePending = some ⟨row.id,.writing,w.machine.now,none⟩) ∨
  (∃ marker, op = .key (.recordWake marker) ∧ k' = recordWake w.machine.now marker w.store.keys) ∨
  ∃ payload, op = .key (.activeHook payload) ∧ k' = activeHook w.machine.now payload w.store.keys

theorem change (op : Op) (w : World) : Change op w (apply op w).store.keys := by
  by_cases hwrites : MetaKey.wakePending ∈ op.writes ∨ MetaKey.lastWake ∈ op.writes
  · cases op with
    | inbox op =>
      have h := InboxOp.keys_cases w.machine w.store op
      change Change _ w (op.apply w.machine w.store).keys
      rcases h with h | ⟨-,h⟩ | ⟨config,row,rfl,hc,h⟩ | ⟨-,h⟩
      · rw [h]
        exact Or.inl ⟨rfl,Or.inl rfl⟩
      · rw [h]
        exact Or.inl ⟨rfl,Or.inr (Or.inl rfl)⟩
      · rw [h]
        exact Or.inl ⟨rfl,Or.inr (Or.inr ⟨config,row,rfl,hc,rfl⟩)⟩
      · rw [h]
        exact Or.inl ⟨rfl,Or.inl rfl⟩
    | key op =>
      rw [apply_key_keys]
      cases op with
      | recordWake marker => exact Or.inr (Or.inl ⟨marker,rfl,rfl⟩)
      | activeHook payload => exact Or.inr (Or.inr ⟨payload,rfl,rfl⟩)
      | dropWake => exact Or.inl ⟨rfl,Or.inr (Or.inl rfl)⟩
      | nullWake => exact Or.inl ⟨rfl,Or.inr (Or.inl rfl)⟩
      | changeOwner forgetHook => exact Or.inl ⟨rfl,Or.inr (Or.inl rfl)⟩
      | putBudget key value => cases key <;> simp [Op.writes,KeyOp.writes,BudgetKey.metaKey] at hwrites
      | configureDelivery mode budget =>
        cases budget <;> simp [Op.writes,KeyOp.writes,windowKeys] at hwrites
      | _ => simp [Op.writes,KeyOp.writes] at hwrites
    | _ => simp [Op.writes] at hwrites
  · obtain ⟨hpending,hlast⟩ := not_or.mp hwrites
    exact Or.inl ⟨apply_frame op w hlast,Or.inl (apply_frame op w hpending)⟩

end PeerChat.Wake
