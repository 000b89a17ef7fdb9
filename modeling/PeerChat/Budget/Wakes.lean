import PeerChat.System.Frame

/-! The wake allowance: only a claim spends from it, one unit each, and only the writes that open a
window raise it. -/
namespace PeerChat
open Python Interleaving

/-- Does the access write the wake allowance anew? -/
def resetsWakes (w : World) : Op → Bool
  | .key (.renew turn) => (renews turn w.store.keys).isSome
  | .key (.putBudget .wakeRemaining _) => true
  | .key (.configureDelivery _ (some _)) => true
  | _ => false

/-- The step claims a wake for a row. -/
def ClaimsFor (row : MessageRow) (t : Step World Op) : Prop :=
  ∃ config, t.label = .inbox (.claimWake config) ∧
    Wake.claimed t.pre.machine config t.pre.store = some row

/-- A claim finds the session idle, both allowances left and no marker. -/
lemma ClaimsFor.mayClaim {row : MessageRow} {t : Step World Op} (h : ClaimsFor row t) :
    Wake.mayClaim t.pre.store.keys = true := by
  obtain ⟨config,-,hc⟩ := h
  rw [Wake.claimed] at hc
  split_ifs at hc with hm
  exact hm

/-- The keys after a claim. -/
lemma ClaimsFor.keys {row : MessageRow} {t : Step World Op} (h : ClaimsFor row t) :
    t.post.store.keys = Wake.claimKeys t.pre.machine.now row.id t.pre.store.keys := by
  obtain ⟨config,hl,hc⟩ := h
  obtain ⟨l,w⟩ := t
  obtain rfl : l = .inbox (.claimWake config) := hl
  rcases claim_keys w.machine config w.store with ⟨hn,-⟩ | ⟨row',hc',hk⟩
  · exact absurd (hc.symm.trans hn) (by simp)
  · obtain rfl : row = row' := Option.some.inj (hc.symm.trans hc')
    exact hk

/-- A step that opens no window spends from the wake allowance by a claim only. -/
theorem wakes_step {op : Op} {w : World} (h : resetsWakes w op = false) :
    (apply op w).store.keys.wakeRemaining = w.store.keys.wakeRemaining ∨
      ∃ row, ClaimsFor row ⟨op,w⟩ ∧
        (apply op w).store.keys.wakeRemaining = (wakesLeft w.store.keys).map spend := by
  by_cases hw : MetaKey.wakeRemaining ∈ op.writes
  · cases op with
    | inbox op =>
      rcases InboxOp.keys_cases w.machine w.store op with hk | ⟨-,hk⟩ | ⟨config,row,rfl,hc,hk⟩ | ⟨-,hk⟩
      · exact Or.inl (congrArg Meta.wakeRemaining hk)
      · exact Or.inl ((congrArg Meta.wakeRemaining hk).trans rfl)
      · exact Or.inr ⟨row,⟨config,rfl,hc⟩,(congrArg Meta.wakeRemaining hk).trans rfl⟩
      · exact Or.inl ((congrArg Meta.wakeRemaining hk).trans rfl)
    | key op =>
      left
      cases op with
      | renew turn =>
        simp only [resetsWakes,Option.isSome_eq_false_iff,Option.isNone_iff_eq_none] at h
        simp only [apply_key_keys,KeyOp.apply,renew,h]
      | putBudget key value => cases key <;> first | rfl | cases h
      | configureDelivery mode budget => cases budget <;> first | rfl | cases h
      | _ => simp [Op.writes,KeyOp.writes,wakeKeys] at hw
    | _ => simp [Op.writes] at hw
  · exact Or.inl (apply_frame op w hw)

end PeerChat
