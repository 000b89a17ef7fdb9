import PeerChat.Inbox.StatusSteps

/-! What a transaction on the message table does to the meta keys beside it. -/
namespace PeerChat
open Python Interleaving

lemma claim_keys (m : Machine) (config : Config) (s : Store) :
    Wake.claimed m config s = none ∧ (Wake.claim m config s).keys = s.keys ∨
      ∃ row, Wake.claimed m config s = some row ∧
        (Wake.claim m config s).keys = Wake.claimKeys m.now row.id s.keys := by
  have hloop : ∀ rows t, (Wake.holdUndeliverable m config rows t).1.keys = t.keys := by
    intro rows
    induction rows with
    | nil => exact fun _ => rfl
    | cons row rows ih =>
      intro t
      simp only [Wake.holdUndeliverable]
      split
      · rw [ih,Store.setRows_keys]
      · rfl
  simp only [Wake.claim,Wake.claimed]
  split_ifs
  · have hk := hloop s.pending s
    cases hc : Wake.holdUndeliverable m config s.pending s with
    | mk s' row =>
      rw [hc] at hk
      have hk' : s'.keys = s.keys := hk
      cases row with
      | none => exact Or.inl ⟨rfl,hk'⟩
      | some row => exact Or.inr ⟨row,rfl,by simp [hk']⟩
  · exact Or.inl ⟨rfl,rfl⟩

lemma offerRows_keys {m : Machine} {config : Config} {rows : List MessageRow} {b b' : Batch}
    (h : offerRows m config rows b = .ok b') : b'.store.keys = b.store.keys := by
  induction rows generalizing b with
  | nil =>
    cases h
    rfl
  | cons row rows ih =>
    rcases offerRows_cons h with rfl | ⟨reason,-,hrun⟩ | ⟨remaining,text,-,-,-,-,hrun⟩
    · rfl
    · have hi := ih hrun
      exact hi
    · have hi := ih hrun
      exact hi

lemma offer_keys (m : Machine) (config : Config) (notice : Str) (s : Store) :
    (offer m config notice s).keys = { s.keys with remaining := (offer m config notice s).keys.remaining } := by
  simp only [offer]
  split
  · rename_i b hb
    obtain ⟨-,pieces,hrows⟩ := offerBatch_some hb
    rw [Store.setKeys_keys,offerRows_keys hrows]
    rfl
  · rfl

/-- The acknowledgements. -/
def InboxOp.acknowledges : InboxOp → Bool
  | .readAck | .readAckFrom _ | .ackById .. => true
  | _ => false

/-- The keys after a transaction on the message table. -/
theorem InboxOp.keys_cases (m : Machine) (s : Store) (op : InboxOp) :
    (op.apply m s).keys = s.keys ∨
    (op.acknowledges = true ∧ (op.apply m s).keys = { s.keys with wakePending := none }) ∨
    (∃ config row, op = .claimWake config ∧ Wake.claimed m config s = some row ∧
      (op.apply m s).keys = Wake.claimKeys m.now row.id s.keys) ∨
    ((Op.inbox op).automatic = true ∧
      (op.apply m s).keys = { s.keys with remaining := (op.apply m s).keys.remaining }) := by
  have hack : ∀ t : Store, t.keys = s.keys → t.clearConsumedWake.keys = s.keys ∨
      t.clearConsumedWake.keys = { s.keys with wakePending := none } := by
    intro t ht
    rw [← ht]
    exact t.clearConsumedWake_keys
  cases op with
  | accept peer id body mode hops => exact Or.inl rfl
  | setStatus peer id outcome detail => exact Or.inl rfl
  | readAck =>
    rcases hack _ (Store.setRows_keys s (fun r => ackable r.status) .consumed ACK_DETAIL) with h | h
    · exact Or.inl h
    · exact Or.inr (Or.inl ⟨rfl,h⟩)
  | readAckFrom peer =>
    rcases hack _ (Store.setRows_keys s (fun r => r.peer = peer && ackable r.status) .consumed
      ACK_DETAIL) with h | h
    · exact Or.inl h
    · exact Or.inr (Or.inl ⟨rfl,h⟩)
  | ackById peer id =>
    rcases hack _ (Store.setRows_keys s (fun r => r.id = id && r.peer = peer) .consumed ACK_DETAIL)
      with h | h
    · exact Or.inl h
    · exact Or.inr (Or.inl ⟨rfl,h⟩)
  | offer config notice => exact Or.inr (Or.inr (Or.inr ⟨rfl,offer_keys ..⟩))
  | claimForwarding peer id =>
    refine Or.inr (Or.inr (Or.inr ⟨rfl,?_⟩))
    simp only [InboxOp.apply,Store.claimForwarding]
    split_ifs <;> rfl
  | claimWake config =>
    rcases claim_keys m config s with ⟨-,h⟩ | ⟨row,hc,h⟩
    · exact Or.inl h
    · exact Or.inr (Or.inr (Or.inl ⟨config,row,rfl,hc,h⟩))

end PeerChat
