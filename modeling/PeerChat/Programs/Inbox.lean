import PeerChat.System.Op

/-! The programs that fill and empty the inbox: the listener's `accept`, the reading commands, and
the hook. -/
namespace PeerChat
open Python Wire Interleaving

/-- `store_notice`: the notices are read in one statement and written in a later one. -/
def storeNotice (peer state warning : Str) (remaining : Option Budget) : Code Unit := do
  let w ← read .peerNotices id
  emit (.key (.putNotices
    (Dict.set w.store.keys.peerNotices peer ⟨w.machine.now,state,remaining,warning⟩)))

/-- `Store.accept(peer_key, frame)`. -/
def accept (peer : Str) : Frame → Code Bool
  | .notice state warning remaining => do
    storeNotice peer state warning remaining
    return true
  | .receipt mid body => do
    let prior ← read .receipts fun w => (w.store.receipts.find (peer,mid)).map (·.body)
    if prior = some body then return false
    else
      emit (.sending (.acceptReceipt peer mid body))
      return true
  | .message mid body mode hops => do
    let w ← Prog.perform (.inbox (.accept peer mid body mode hops))
    return (w.store.messages.find (peer,mid)).isNone

/-- `Store.read(ack)`: the rows are selected in one statement and acknowledged in a later
transaction. -/
def readInbox (ack : Bool) : Code (List MessageRow) := do
  let rows ← read .inbox fun w => (w.store.select fun _ => true).map messageRecord
  if ack then
    emit (.inbox .readAck)
    return rows.map acknowledgedRecord
  else return rows

/-- `read --from NAME`, with the rows selected again after an acknowledgement. -/
def readFrom (peer : Str) (ack : Bool) : Code (List MessageRow) := do
  let rows ← readInbox false
  if ack then
    emit (.inbox (.readAckFrom peer))
    let rows ← readInbox false
    return rows.filter (·.peer = peer)
  else return rows.filter (·.peer = peer)

/-- `clear_consumed_wake` outside a transaction. -/
def clearConsumedWake : Code Unit := do
  let wake ← read .wakePending (·.store.keys.wakePending)
  match wake with
  | none => return ()
  | some wake =>
    let found ← read .inbox fun w =>
      w.store.messages.rows.any fun r => r.id = wake.id && r.status = .consumed
    if found then emit (.key .dropWake) else return ()

/-- `read --id ID` and `ack ID`. -/
def readById (selected : Option Str) (mid : Str) (ack : Bool) :
    Code (Except Exc (List MessageRow)) := do
  let rows ← read .inbox fun w => (w.store.messages.rows.filter fun r =>
    r.id = mid && (selected = none || selected = some r.peer)).map messageRecord
  if ¬ ack then return .ok rows
  else match rows with
    | [] => do
      clearConsumedWake
      return .ok []
    | [row] => do
      emit (.inbox (.ackById row.peer mid))
      return .ok [{ row with status := .consumed, detail := ACK_DETAIL }]
    | _ => return (.error
        (valueError "Message id is ambiguous across peers; specify --from SESSION_NAME"))

/-! The hook. -/

/-- The phase that a hook event stands for. -/
def eventPhase (event : HookEvent) : Phase := if event.idle then .idle else .active

/-- The end of `deliver` for an active event: the notices, then the offer. -/
def handOver (config : Config) : Code (Except Exc (Option Str)) := do
  let before ← Prog.perform (.key .takeNotices)
  let notice := noticesText before.machine before.store.keys.peerNotices
  let before ← Prog.perform (.inbox (.offer config notice))
  return offeredContext before.machine config notice before.store

/-- An owner prompt renews the window. -/
def renewWindow (payload : HookPayload) : Code Unit :=
  match ownerTurn payload with
  | some turn => emit (.key (.renew turn))
  | none => .ret ()

/-- An active hook decides the wake. -/
def decideWake (payload : HookPayload) : Code Unit :=
  if payload.event.active then emit (.key (.activeHook payload)) else .ret ()

/-- `deliver` after the routing check. -/
def deliverRouted (config : Config) (payload : HookPayload) : Code (Except Exc (Option Str)) := do
  renewWindow payload
  -- a resumed session's listener is restored by a process of its own
  emit (.key (.putPhase (eventPhase payload.event)))
  decideWake payload
  if payload.event.idle then return .ok none else handOver config

/-- What a hook records of itself. -/
def seenRecord (m : Machine) (payload : HookPayload) (config : Config)
    (registration : Option Registration) (routing : Routing) : HookSeen where
  time := m.now
  event := payload.event
  turn := payload.turn
  routing := routing
  ownerIdentity := some ((registration.map (·.ownerIdentity)).getD config.ownerIdentity)

/-- `deliver(payload, state_root)` where the inbox exists. -/
def deliver (payload : HookPayload) : Code (Except Exc (Option Str)) := do
  if ¬ payload.event.lifecycle ∨ ¬ validId payload.sessionId then return .ok none
  else
    let registration ← read .machine fun w => register w.machine payload
    let config ← read .config (·.store.keys.config)
    match config with
    | none => return .ok none
    | some config =>
      let m ← read .machine (·.machine)
      match routingRejection m payload config true with
      | none => do
        emit (.key (.putHookSeen (seenRecord m payload config registration .matched)))
        deliverRouted config payload
      | some reason => do
        emit (.key (.putHookRejected
          (seenRecord m payload config registration (.rejected reason))))
        -- startup registration can precede the row of an empty thread
        if registration.isSome ∧ payload.event = .sessionStart ∧ reason = str "missing thread" then
          deliverRouted config payload
        else return .ok none

end PeerChat
