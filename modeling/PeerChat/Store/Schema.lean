import Mathlib.Algebra.GroupWithZero.Nat
import PeerChat.Peers.Records
import PeerChat.Relational.Table
import PeerChat.Wire.Frame

/-! The bridge database: the message and outgoing tables and the values under the meta keys. A
row of the source's `messages` table is of kind message or receipt; the kinds never meet in a
query, so each has a table of its own. A meta key that is absent and one that holds null read
the same. -/
namespace PeerChat
open Python Relational Wire

inductive Status
  | received
  | hookOffered
  | forwarding
  | queued
  | queueFailed
  | queueUncertain
  | held
  | consumed
  deriving DecidableEq

structure MessageRow where
  peer : Str
  id : Str
  body : Str
  senderMode : Mode
  hops : List Str
  status : Status
  detail : Str
  created : Time
  deriving DecidableEq

def MessageRow.key (r : MessageRow) : Str × Str := (r.peer,r.id)

structure ReceiptRow where
  peer : Str
  id : Str
  body : Receipt
  created : Time
  deriving DecidableEq

def ReceiptRow.key (r : ReceiptRow) : Str × Str := (r.peer,r.id)

/-- The status of an outgoing row; `peer body` is the text `peer_` and the receipt's body. -/
inductive SentStatus
  | pending
  | writing
  | written
  | uncertain
  | peer (body : Receipt)
  deriving DecidableEq

structure OutgoingRow where
  id : Str
  body : Str
  status : SentStatus
  detail : Str
  created : Time
  /-- The destination's key; missing in rows from before there was one. -/
  peer : Option Str
  deriving DecidableEq

/-! The meta table. -/

inductive Phase
  | idle
  | active
  | interrupted
  | unknown
  deriving DecidableEq

inductive Delivery
  | inbox
  | live
  | auto
  | queue
  deriving DecidableEq

structure Runtime where
  pid : Pid
  identity : Option Str
  socket : Str
  protocolVersion : ℤ := 1
  deriving DecidableEq

inductive Routing
  | matched
  | rejected (reason : Str)
  deriving DecidableEq

/-- The record a hook leaves of itself. -/
structure HookSeen where
  time : Time
  event : HookEvent
  turn : Option Str
  routing : Routing
  ownerIdentity : Option Str
  deriving DecidableEq

inductive WakeState
  | writing
  | queued
  | failed
  | uncertain
  | activated
  | raced
  | cancelled
  deriving DecidableEq

structure WakePending where
  id : Str
  status : WakeState
  time : Time
  queueId : Option Str
  deriving DecidableEq

structure LastWake where
  id : Str
  queueId : Option Str
  state : WakeState
  time : Time
  event : Option HookEvent
  turn : Option Str
  detail : Str
  deriving DecidableEq

structure WakeCounts where
  activated : ℕ := 0
  raced : ℕ := 0
  cancelled : ℕ := 0
  failed : ℕ := 0
  uncertain : ℕ := 0
  deriving DecidableEq

structure Notice where
  time : Time
  state : Str
  remaining : Option Budget
  warning : Str
  deriving DecidableEq

/-- The evidence that a turn has ended. -/
structure TurnEnd where
  aborted : Bool
  turn : Str
  time : Time
  ownerIdentity : Str
  hookTime : Time
  deriving DecidableEq

structure Meta where
  config : Option Config := none
  /-- An absent flag reads as false. -/
  stop : Bool := false
  runtime : Option Runtime := none
  phase : Option Phase := none
  delivery : Option Delivery := none
  remaining : Option Budget := none
  wakeRemaining : Option Budget := none
  budgetLimit : Option Budget := none
  budgetOwnerTurn : Option Str := none
  hookSeen : Option HookSeen := none
  hookRejected : Option HookSeen := none
  wakePending : Option WakePending := none
  lastWake : Option LastWake := none
  wakeCounts : WakeCounts := {}
  peerNotices : List (Str × Notice) := []
  lifecycleReconciled : Option TurnEnd := none
  /-- The keys `reply_to:` with an outgoing id. -/
  replyTo : List (Str × Str) := []
  deriving DecidableEq

structure Store where
  messages : Table MessageRow (Str × Str) MessageRow.key
  receipts : Table ReceiptRow (Str × Str) ReceiptRow.key
  outgoing : Table OutgoingRow Str OutgoingRow.id
  keys : Meta

/-- A new database. -/
def Store.empty : Store := ⟨.empty,.empty,.empty,{}⟩

/-- Everything that the processes of one bridge share. -/
structure World where
  store : Store
  /-- The frames handed to socket writes for outgoing rows, with the row's id. -/
  wire : List (Str × Bytes)
  machine : Machine

namespace Store

/-- The status of the message with a key. -/
def status (s : Store) (key : Str × Str) : Option Status := (s.messages.find key).map (·.status)

def sentStatus (s : Store) (id : Str) : Option SentStatus := (s.outgoing.find id).map (·.status)

/-- `SELECT * FROM messages WHERE kind='message' AND … ORDER BY created`. -/
def select (s : Store) (p : MessageRow → Bool) : List MessageRow :=
  s.messages.select p fun a b => a.created ≤ b.created

/-- `UPDATE messages SET status=?,detail=? WHERE kind='message' AND …`. -/
def setRows (s : Store) (p : MessageRow → Bool) (status : Status) (detail : Str) : Store :=
  { s with messages :=
      s.messages.update p (fun r => { r with status := status, detail := detail }) fun _ => rfl }

/-- `UPDATE messages SET status=? WHERE kind='message' AND …`. -/
def markRows (s : Store) (p : MessageRow → Bool) (status : Status) : Store :=
  { s with messages := s.messages.update p (fun r => { r with status := status }) fun _ => rfl }

/-- `UPDATE outgoing SET status=?,detail=? WHERE …`. -/
def setSent (s : Store) (p : OutgoingRow → Bool) (status : SentStatus) (detail : Str) : Store :=
  { s with outgoing :=
      s.outgoing.update p (fun r => { r with status := status, detail := detail }) fun _ => rfl }

/-- Writing meta keys. -/
def setKeys (s : Store) (f : Meta → Meta) : Store := { s with keys := f s.keys }

@[simp] theorem setRows_keys (s : Store) (p : MessageRow → Bool) (st : Status) (d : Str) :
    (s.setRows p st d).keys = s.keys := rfl

@[simp] theorem markRows_keys (s : Store) (p : MessageRow → Bool) (st : Status) :
    (s.markRows p st).keys = s.keys := rfl

@[simp] theorem markRows_outgoing (s : Store) (p : MessageRow → Bool) (st : Status) :
    (s.markRows p st).outgoing = s.outgoing := rfl

@[simp] theorem setRows_outgoing (s : Store) (p : MessageRow → Bool) (st : Status) (d : Str) :
    (s.setRows p st d).outgoing = s.outgoing := rfl

@[simp] theorem setSent_messages (s : Store) (p : OutgoingRow → Bool) (st : SentStatus) (d : Str) :
    (s.setSent p st d).messages = s.messages := rfl

@[simp] theorem setSent_keys (s : Store) (p : OutgoingRow → Bool) (st : SentStatus) (d : Str) :
    (s.setSent p st d).keys = s.keys := rfl

@[simp] theorem setKeys_messages (s : Store) (f : Meta → Meta) :
    (s.setKeys f).messages = s.messages := rfl

@[simp] theorem setKeys_outgoing (s : Store) (f : Meta → Meta) :
    (s.setKeys f).outgoing = s.outgoing := rfl

@[simp] theorem setKeys_keys (s : Store) (f : Meta → Meta) : (s.setKeys f).keys = f s.keys := rfl

@[simp] theorem status_setKeys (s : Store) (f : Meta → Meta) (key : Str × Str) :
    (s.setKeys f).status key = s.status key := rfl

@[simp] theorem status_setSent (s : Store) (p : OutgoingRow → Bool) (st : SentStatus) (d : Str)
    (key : Str × Str) : (s.setSent p st d).status key = s.status key := rfl

theorem find_setRows (s : Store) (p : MessageRow → Bool) (st : Status) (d : Str) (key : Str × Str) :
    (s.setRows p st d).messages.find key = (s.messages.find key).map fun r =>
      if p r then { r with status := st, detail := d } else r :=
  s.messages.find_update p (fun r => { r with status := st, detail := d }) (fun _ => rfl) key

theorem status_setRows (s : Store) (p : MessageRow → Bool) (st : Status) (d : Str)
    (key : Str × Str) : (s.setRows p st d).status key =
      (s.messages.find key).map fun r => if p r then st else r.status := by
  rw [status,find_setRows,Option.map_map]
  congr 1
  funext r
  simp only [Function.comp_apply]
  split_ifs <;> rfl

theorem find_markRows (s : Store) (p : MessageRow → Bool) (st : Status) (key : Str × Str) :
    (s.markRows p st).messages.find key = (s.messages.find key).map fun r =>
      if p r then { r with status := st } else r :=
  s.messages.find_update p (fun r => { r with status := st }) (fun _ => rfl) key

theorem status_markRows (s : Store) (p : MessageRow → Bool) (st : Status) (key : Str × Str) :
    (s.markRows p st).status key = (s.messages.find key).map fun r => if p r then st else r.status := by
  rw [status,find_markRows,Option.map_map]
  congr 1
  funext r
  simp only [Function.comp_apply]
  split_ifs <;> rfl

theorem sentStatus_setSent (s : Store) (p : OutgoingRow → Bool) (st : SentStatus) (d : Str)
    (id : Str) : (s.setSent p st d).sentStatus id =
      (s.outgoing.find id).map fun r => if p r then st else r.status := by
  rw [sentStatus,setSent,Table.find_update,Option.map_map]
  congr 1
  funext r
  simp only [Function.comp_apply]
  split_ifs <;> rfl

theorem mem_select {s : Store} {p : MessageRow → Bool} {r : MessageRow} :
    r ∈ s.select p ↔ s.messages.find r.key = some r ∧ p r = true := by
  rw [select,Table.select_mem,Table.find_eq_some_iff]
  simp

end Store
end PeerChat
