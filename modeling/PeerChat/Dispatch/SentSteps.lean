import PeerChat.System.Made

/-! What one access can do to the status of one outgoing row. -/
namespace PeerChat
open Python Relational Wire Interleaving

/-- The change of one row's status under an access. -/
def SentStep (op : Op) (id : Str) (a b : Option SentStatus) : Prop :=
  b = a ∨ match op with
  | .sending (.enqueue mid _ _) => mid = id ∧ a = none ∧ b = some .pending
  | .sending (.markWriting mid) => mid = id ∧ a.isSome = true ∧ b = some .writing
  | .sending (.finish mid ending _) => mid = id ∧ a.isSome = true ∧ b = some ending.toStatus
  | .sending (.acceptReceipt _ mid body) => mid = id ∧ a.isSome = true ∧ b = some (.peer body)
  | .restart => a = some .writing ∧ b = some .uncertain
  | _ => False

namespace Store

lemma outgoing_of_offerRows {m : Machine} {config : Config} {rows : List MessageRow} {b b' : Batch}
    (h : offerRows m config rows b = .ok b') : b'.store.outgoing = b.store.outgoing := by
  induction rows generalizing b with
  | nil =>
    cases h
    rfl
  | cons row rows ih =>
    rcases offerRows_cons h with rfl | ⟨reason,-,hrun⟩ | ⟨remaining,text,-,-,-,-,hrun⟩
    · rfl
    · have hi := ih hrun
      exact hi
    · have hi := ih hrun
      exact hi

lemma outgoing_holdUndeliverable (m : Machine) (config : Config) (rows : List MessageRow)
    (s : Store) : (Wake.holdUndeliverable m config rows s).1.outgoing = s.outgoing := by
  induction rows generalizing s with
  | nil => rfl
  | cons row rows ih =>
    simp only [Wake.holdUndeliverable]
    split
    · rw [ih,setRows_outgoing]
    · rfl

lemma outgoing_claim (m : Machine) (config : Config) (s : Store) :
    (Wake.claim m config s).outgoing = s.outgoing := by
  have h := outgoing_holdUndeliverable m config s.pending s
  simp only [Wake.claim]
  split_ifs
  · split
    · rename_i heq
      rw [heq] at h
      exact h
    · rename_i heq
      rw [heq] at h
      exact h
  · rfl

lemma outgoing_offer (m : Machine) (config : Config) (notice : Str) (s : Store) :
    (offer m config notice s).outgoing = s.outgoing := by
  simp only [offer]
  split
  · rename_i b hb
    obtain ⟨-,pieces,hrows⟩ := offerBatch_some hb
    exact outgoing_of_offerRows hrows
  · rfl

end Store

/-- Transactions on the message table leave the outgoing rows alone. -/
theorem apply_inbox_outgoing (op : InboxOp) (w : World) :
    (apply (Op.inbox op) w).store.outgoing = w.store.outgoing := by
  cases op with
  | accept peer id body mode hops => rfl
  | readAck => exact Store.clearConsumedWake_outgoing _
  | readAckFrom peer => exact Store.clearConsumedWake_outgoing _
  | ackById peer id => exact Store.clearConsumedWake_outgoing _
  | setStatus peer id outcome detail => rfl
  | offer config notice => exact Store.outgoing_offer ..
  | claimForwarding peer id =>
    change (w.store.claimForwarding peer id).outgoing = _
    simp only [Store.claimForwarding]
    split_ifs <;> rfl
  | claimWake config => exact Store.outgoing_claim ..

/-! The updates of one row. -/

namespace Store

/-- An update by id reaches its own row. -/
lemma sentStatus_setSent_id (s : Store) (id : Str) (st : SentStatus) (d : Str) :
    (s.setSent (fun r => r.id = id) st d).sentStatus id = (s.sentStatus id).map fun _ => st := by
  rw [sentStatus_setSent,sentStatus,Option.map_map]
  cases h : s.outgoing.find id with
  | none => rfl
  | some r => simp [(Table.find_some h).2]

lemma sentStatus_setSent_ne (s : Store) {id id' : Str} (hne : id' ≠ id) (st : SentStatus) (d : Str) :
    (s.setSent (fun r => r.id = id) st d).sentStatus id' = s.sentStatus id' := by
  rw [sentStatus_setSent,sentStatus]
  cases h : s.outgoing.find id' with
  | none => rfl
  | some r => simp [(Table.find_some h).2,hne]

lemma sentStatus_markWriting (s : Store) (id id' : Str) : (s.markWriting id).sentStatus id' =
    if id' = id then (s.sentStatus id').map fun _ => .writing else s.sentStatus id' := by
  rw [sentStatus,markWriting,Table.find_update,sentStatus,Option.map_map,Option.map_map]
  cases h : s.outgoing.find id' with
  | none => simp
  | some r =>
    have hid := (Table.find_some h).2
    split_ifs with he
    · simp [hid,he]
    · simp [hid,he]

end Store

lemma sentStatus_of_outgoing {s s' : Store} (h : s'.outgoing = s.outgoing) (id : Str) :
    s'.sentStatus id = s.sentStatus id := by rw [Store.sentStatus,Store.sentStatus,h]

/-- What a stored receipt does to a row: it moves the row that is addressed to its sender. -/
lemma sentStatus_acceptReceipt (s : Store) (now : Time) (peer mid : Str) (body : Receipt)
    (id : Str) : (s.acceptReceipt now peer mid body).sentStatus id =
      if mid = id ∧ (s.outgoing.find id).any (s.addressedTo peer id) then some (.peer body)
      else s.sentStatus id := by
  have haddr : ∀ r, ({ s with receipts := s.receipts.replace ⟨peer,mid,body,now⟩ } : Store).addressedTo
      peer mid r = s.addressedTo peer mid r := fun _ => rfl
  rw [Store.acceptReceipt,Store.sentStatus_setSent]
  cases h : s.outgoing.find id with
  | none => simp [Store.sentStatus,h]
  | some r =>
    have hid : r.id = id := (Table.find_some h).2
    simp only [haddr,Option.map_some,Option.any_some,Store.sentStatus,h]
    by_cases hm : mid = id
    · subst hm
      simp only [true_and]
      split_ifs <;> rfl
    · have hno : s.addressedTo peer mid r = false := by
        simp only [Store.addressedTo,Bool.and_eq_false_iff,decide_eq_false_iff_not]
        left
        rw [hid]
        exact fun h => hm h.symm
      simp [hm,hno]

/-- The startup updates leave no row in `writing`. -/
lemma sentStatus_restart (s : Store) (id : Str) : s.restart.sentStatus id ≠ some .writing := by
  rw [Store.restart,Store.sentStatus_setSent,Store.setRows_outgoing]
  intro h
  obtain ⟨r,-,hr⟩ := Option.map_eq_some_iff.mp h
  split_ifs at hr with hw
  exact hw (by simpa using hr)

theorem sent_step (op : Op) (w : World) (id : Str) :
    SentStep op id (w.store.sentStatus id) ((apply op w).store.sentStatus id) := by
  cases op with
  | look what => exact Or.inl rfl
  | outside m => exact Or.inl rfl
  | key op => exact Or.inl (sentStatus_of_outgoing rfl id)
  | inbox op => exact Or.inl (sentStatus_of_outgoing (apply_inbox_outgoing op w) id)
  | restart =>
    change SentStep .restart id _ (w.store.restart.sentStatus id)
    rw [Store.restart,Store.sentStatus_setSent,Store.setRows_outgoing,Store.sentStatus]
    cases h : w.store.outgoing.find id with
    | none => exact Or.inl rfl
    | some r =>
      by_cases hw : r.status = .writing
      · exact Or.inr ⟨by simp [hw],by simp [hw]⟩
      · exact Or.inl (by simp [hw])
  | sending op =>
    cases op with
    | sendFrame mid data => exact Or.inl rfl
    | enqueue mid body peer =>
      change SentStep (.sending (.enqueue mid body peer)) id _
        (((w.store.outgoing.insert ⟨mid,body,.pending,[],w.machine.now,some peer⟩).find id).map
          (·.status))
      rw [Table.find_insert,Store.sentStatus]
      cases h : w.store.outgoing.find id with
      | some r => exact Or.inl (by simp)
      | none =>
        by_cases hid : id = mid
        · exact Or.inr ⟨hid.symm,rfl,by simp [hid]⟩
        · exact Or.inl (by simp [hid])
    | markWriting mid =>
      change SentStep (.sending (.markWriting mid)) id _ ((w.store.markWriting mid).sentStatus id)
      rw [Store.sentStatus_markWriting]
      split_ifs with hid
      · cases h : w.store.sentStatus id with
        | none => exact Or.inl rfl
        | some st => exact Or.inr ⟨hid.symm,rfl,rfl⟩
      · exact Or.inl rfl
    | finish mid ending detail =>
      change SentStep (.sending (.finish mid ending detail)) id _
        ((w.store.finishOutgoing mid ending detail).sentStatus id)
      rw [Store.finishOutgoing]
      by_cases hid : id = mid
      · subst hid
        rw [Store.sentStatus_setSent_id]
        cases h : w.store.sentStatus id with
        | none => exact Or.inl rfl
        | some st => exact Or.inr ⟨rfl,rfl,rfl⟩
      · rw [Store.sentStatus_setSent_ne _ hid]
        exact Or.inl rfl
    | acceptReceipt peer mid body =>
      change SentStep (.sending (.acceptReceipt peer mid body)) id _
        ((w.store.acceptReceipt w.machine.now peer mid body).sentStatus id)
      rw [sentStatus_acceptReceipt]
      split_ifs with h
      · obtain ⟨r,hr,-⟩ := (Option.any_eq_true ..).mp h.2
        exact Or.inr ⟨h.1,by rw [Store.sentStatus,hr]; rfl,rfl⟩
      · exact Or.inl rfl

/-- The receipt that a step accepts for the row: it is addressed to the receipt's sender. -/
def accepted (id : Str) (t : Step World Op) : Option Receipt :=
  match t.label with
  | .sending (.acceptReceipt peer mid body) =>
    if mid = id ∧ (t.pre.store.outgoing.find id).any (t.pre.store.addressedTo peer id) then some body
    else none
  | _ => none

/-- The updates that a dispatch makes of its row. -/
def Op.updatesSent (id : Str) : Op → Bool
  | .sending (.markWriting mid) | .sending (.finish mid _ _) => mid = id
  | _ => false

/-! The content of an outgoing row. -/

/-- A row without its status and the detail of it. -/
def OutgoingRow.content (r : OutgoingRow) : Str × Option Str × Time := (r.body,r.peer,r.created)

lemma content_update (s : Store) (p : OutgoingRow → Bool) (f : OutgoingRow → OutgoingRow)
    (hf : ∀ r, (f r).id = r.id) (hcontent : ∀ r, (f r).content = r.content) (id : Str) :
    ((s.outgoing.update p f hf).find id).map (·.content) = (s.outgoing.find id).map (·.content) := by
  rw [Table.find_update,Option.map_map]
  congr 1
  funext r
  simp only [Function.comp_apply]
  split_ifs
  · exact hcontent r
  · rfl

lemma content_setSent (s : Store) (p : OutgoingRow → Bool) (status : SentStatus) (detail : Str)
    (id : Str) : ((s.setSent p status detail).outgoing.find id).map (·.content) =
      (s.outgoing.find id).map (·.content) :=
  content_update s p (fun r => { r with status := status, detail := detail }) (fun _ => rfl)
    (fun _ => rfl) id

/-- Only its insertion gives a row its content, and then it stays. -/
theorem sent_content_step (op : Op) (w : World) (id : Str) :
    ((apply op w).store.outgoing.find id).map (·.content) =
      (w.store.outgoing.find id).map (·.content) ∨
    w.store.outgoing.find id = none ∧ ∃ body peer, op = .sending (.enqueue id body peer) ∧
      ((apply op w).store.outgoing.find id).map (·.content) =
        some (body,some peer,w.machine.now) := by
  cases op with
  | inbox op =>
    left
    rw [apply_inbox_outgoing]
  | restart => exact Or.inl (content_setSent ..)
  | sending op =>
    cases op with
    | enqueue mid body peer =>
      have hfind : (apply (Op.sending (.enqueue mid body peer)) w).store.outgoing.find id =
          if id = mid then some ((w.store.outgoing.find id).getD
            ⟨mid,body,.pending,[],w.machine.now,some peer⟩) else w.store.outgoing.find id :=
        Table.find_insert ..
      rw [hfind]
      by_cases he : id = mid
      · subst he
        rw [if_pos rfl]
        cases hold : w.store.outgoing.find id with
        | none => exact Or.inr ⟨rfl,body,peer,rfl,rfl⟩
        | some row => exact Or.inl rfl
      · rw [if_neg he]
        exact Or.inl rfl
    | markWriting mid =>
      exact Or.inl (content_update w.store _ (fun r => { r with status := .writing }) (fun _ => rfl)
        (fun _ => rfl) id)
    | sendFrame mid data => exact Or.inl rfl
    | finish mid ending detail => exact Or.inl (content_setSent ..)
    | acceptReceipt peer mid body => exact Or.inl (content_setSent ..)
  | _ => exact Or.inl rfl

end PeerChat
