import PeerChat.Wake.Claim
import PeerChat.Wire.Outbound

/-! The transactions of the dispatcher and of `send`. -/
namespace PeerChat
open Python

namespace Store

/-- The row that `SELECT * FROM outgoing WHERE status='pending' ORDER BY created LIMIT 1` finds. -/
def nextPending (s : Store) : Option OutgoingRow :=
  (s.outgoing.select (fun r => r.status = .pending) fun a b => a.created ≤ b.created).head?

/-- The insertion of `send`. -/
def enqueue (now : Time) (id body peer : Str) (s : Store) : Store :=
  { s with outgoing := s.outgoing.insert ⟨id,body,.pending,[],now,some peer⟩ }

/-- `UPDATE outgoing SET status='writing' WHERE id=?`. -/
def markWriting (id : Str) (s : Store) : Store :=
  { s with outgoing :=
      s.outgoing.update (fun r => r.id = id) (fun r => { r with status := .writing }) fun _ => rfl }

/-- The status with which a dispatch ends. -/
inductive SendEnd
  | written
  | uncertain

def SendEnd.toStatus : SendEnd → SentStatus
  | .written => .written
  | .uncertain => .uncertain

/-- `UPDATE outgoing SET status=?,detail=? WHERE id=?`. -/
def finishOutgoing (id : Str) (ending : SendEnd) (detail : Str) (s : Store) : Store :=
  s.setSent (fun r => r.id = id) ending.toStatus detail

/-- May the queue mode hand over a message? -/
def mayForward (k : Meta) : Bool := k.delivery = some .queue && available k.remaining

/-- Does the claim of a row take effect? -/
def forwards (peer id : Str) (s : Store) : Bool :=
  mayForward s.keys && s.status (peer,id) = some .received

/-- The claim of queue mode: the row and the allowance in one transaction. -/
def claimForwarding (peer id : Str) (s : Store) : Store :=
  if s.forwards peer id then
    (s.markRows (fun r => r.peer = peer && r.id = id && r.status = .received) .forwarding).setKeys
      fun k => { k with remaining := k.remaining.map spend }
  else s

/-- The startup updates of `serve`. -/
def restart (s : Store) : Store :=
  (s.setRows (fun r => r.status = .forwarding) .queueUncertain
    (str "Bridge restarted during forwarding; no automatic retry")).setSent
    (fun r => r.status = .writing) .uncertain (str "Bridge restarted during write")

end Store

/-- `re.search(r"Queued message ([0-9a-f-]{36})", stdout)`. -/
def queuedMessageId (stdout : Str) : Option Str :=
  let label := str "Queued message "
  stdout.tails.findSome? fun s =>
    let id := (s.drop label.length).take 36
    if label.isPrefixOf s ∧ id.length = 36 ∧
        id.all (fun c => Sha256.isHex c || c == ofChar '-') then some id
    else none

end PeerChat
