import PeerChat.Store.Schema

/-! The inbox half of the source's `Store` class: one definition for the writes of each
transaction. -/
namespace PeerChat
open Python Relational Wire

def ACK_DETAIL : Str := str "Acknowledged by receiving session"
def HOOK_PENDING_DETAIL : Str := str "Returned by hook; model acknowledgement pending"

/-- `message_record(row)`: the old acknowledgement detail is shown as the new one. -/
def messageRecord (r : MessageRow) : MessageRow :=
  if r.status = .consumed ∧ r.detail = HOOK_PENDING_DETAIL then { r with detail := ACK_DETAIL } else r

/-- `status IN ('received','queued','hook_offered')`. -/
def ackable : Status → Bool
  | .received | .queued | .hookOffered => true
  | _ => false

/-- What an acknowledging read shows of a row. -/
def acknowledgedRecord (r : MessageRow) : MessageRow :=
  if ackable r.status then { r with status := .consumed, detail := ACK_DETAIL } else r

namespace Store

/-- The insertion of a message frame. -/
def acceptMessage (now : Time) (peer id body : Str) (mode : Mode) (hops : List Str) (s : Store) :
    Store :=
  { s with messages := s.messages.insert ⟨peer,id,body,mode,hops,.received,[],now⟩ }

/-- Is the outgoing row addressed to this peer? A row without a target belongs to the legacy
peer. -/
def addressedTo (s : Store) (peer id : Str) (r : OutgoingRow) : Bool :=
  r.id = id && (r.peer = some peer || (r.peer = none &&
    match s.keys.config with
    | none => true
    | some config => config.legacyIdentity = some peer))

/-- The transaction that stores a receipt. -/
def acceptReceipt (now : Time) (peer id : Str) (body : Receipt) (s : Store) : Store :=
  let s := { s with receipts := s.receipts.replace ⟨peer,id,body,now⟩ }
  s.setSent (s.addressedTo peer id) (.peer body) (str "Peer receipt: " ++ body.text)

/-- `clear_consumed_wake`. -/
def clearConsumedWake (s : Store) : Store :=
  match s.keys.wakePending with
  | some wake =>
    if s.messages.rows.any fun r => r.id = wake.id && r.status = .consumed then
      s.setKeys fun k => { k with wakePending := none }
    else s
  | none => s

/-- The transaction of `read(ack=True)`. -/
def readAck (s : Store) : Store :=
  (s.setRows (fun r => ackable r.status) .consumed ACK_DETAIL).clearConsumedWake

/-- The transaction of `read --from NAME --ack`. -/
def readAckFrom (peer : Str) (s : Store) : Store :=
  (s.setRows (fun r => r.peer = peer && ackable r.status) .consumed ACK_DETAIL).clearConsumedWake

/-- The transaction of an acknowledgement by id that has found its row. -/
def ackById (peer id : Str) (s : Store) : Store :=
  (s.setRows (fun r => r.id = id && r.peer = peer) .consumed ACK_DETAIL).clearConsumedWake

/-- The message rows still to be delivered, oldest first. -/
def pending (s : Store) : List MessageRow := s.select fun r => r.status = .received

/-- The statuses that callers pass to `set_status`. -/
inductive Outcome
  | held
  | queued
  | queueFailed
  | queueUncertain

def Outcome.toStatus : Outcome → Status
  | .held => .held
  | .queued => .queued
  | .queueFailed => .queueFailed
  | .queueUncertain => .queueUncertain

/-- `set_status`: only an acknowledgement may touch a consumed row, and none of these is one. -/
def setStatus (peer id : Str) (outcome : Outcome) (detail : Str) (s : Store) : Store :=
  s.setRows (fun r => r.peer = peer && r.id = id && r.status ≠ .consumed) outcome.toStatus detail

/-! Where the inbox is left alone. -/

@[simp] theorem clearConsumedWake_messages (s : Store) : s.clearConsumedWake.messages = s.messages := by
  simp only [clearConsumedWake]
  split
  · split_ifs <;> rfl
  · rfl

@[simp] theorem clearConsumedWake_outgoing (s : Store) : s.clearConsumedWake.outgoing = s.outgoing := by
  simp only [clearConsumedWake]
  split
  · split_ifs <;> rfl
  · rfl

/-- Clearing a wake touches no other key. -/
theorem clearConsumedWake_keys (s : Store) : s.clearConsumedWake.keys = s.keys ∨
    s.clearConsumedWake.keys = { s.keys with wakePending := none } := by
  simp only [clearConsumedWake]
  split
  · split_ifs
    · exact Or.inr rfl
    · exact Or.inl rfl
  · exact Or.inl rfl

end Store
end PeerChat
