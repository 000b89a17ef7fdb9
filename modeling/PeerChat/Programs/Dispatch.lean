import PeerChat.Programs.Inbox

/-! The dispatcher: one outgoing message, one idle wake or one forwarded message per tick. -/
namespace PeerChat
open Python Wire Interleaving

/-- `type(exc).__name__ + ": " + str(exc)[:250]`. -/
def failureDetail (exc : Exc) : Str := exc.name ++ str ": " ++ exc.text.take 250

/-- `except (OSError, ValueError)`. -/
def sendCatches (exc : Exc) : Bool := exc.kind = .os || exc.kind = .value

/-- The last update of an outgoing row. An exception that is not caught ends the worker, which
the result false says. -/
def finishSend (id : Str) : Except Exc Unit → Code Bool
  | .ok () => do
    emit (.sending (.finish id .written
      (str "Socket write completed; awaiting peer receipt/reply")))
    return true
  | .error exc =>
    if sendCatches exc then do
      emit (.sending (.finish id .uncertain (failureDetail exc)))
      return true
    else return false

/-- The hop chain that a reply continues. -/
def replyHops (peer : Option Str) (row : OutgoingRow) : Code (List Str) := do
  let replyTo ← read .replyTo fun w => w.store.keys.replyTo.lookup row.id
  if truthy replyTo then
    read .inbox fun w => ((w.store.messages.find (peer.getD [],replyTo.getD [])).map
      (·.hops)).getD []
  else return []

/-- The socket write of a prepared frame. -/
def writeFrame (id : Str) (target : Endpoint) (data : Bytes) : Code Bool := do
  let w ← Prog.perform (.sending (.sendFrame id data))
  finishSend id (w.machine.sendall target)

/-- `dispatch` for a pending outgoing row. -/
def dispatchOutgoing (U : Interp) (config : Config) (row : OutgoingRow) : Code Bool := do
  emit (.sending (.markWriting row.id))
  let peerKey := if truthy row.peer then row.peer else config.legacyIdentity
  let m ← read .machine (·.machine)
  match routedPeer m config peerKey with
  | .error exc => finishSend row.id (.error exc)
  | .ok peer => do
    let hops ← replyHops peerKey row
    let m ← read .machine (·.machine)
    match outbound U m config peer row.body row.id hops false with
    | .error exc => finishSend row.id (.error exc)
    | .ok (target,data) => writeFrame row.id target data

/-! Idle wakes. -/

/-- `except (OSError, TimeoutExpired)`. -/
def wakeCatches (exc : Exc) : Bool := exc.kind = .os || exc.kind = .timeout

/-- The producer's marker after the queue call, or none for an exception that is not caught. -/
def completion (id : Str) : QueueOutcome → Option Wake.Marker
  | .exited code stdout =>
    some ⟨id,if code = 0 then .queued else .failed,queuedMessageId stdout⟩
  | .raised exc => if wakeCatches exc then some ⟨id,.uncertain,none⟩ else none

/-- `wake_idle` after its first record: the queue call and the completion. -/
def queueWake (id : Str) : Code Bool := do
  let outcome ← read .machine (·.machine.queue)
  match completion id outcome with
  | none => return false
  | some marker => do
    emit (.key (.recordWake marker))
    return true

/-- `wake_idle(store, config)`. -/
def wakeIdle (config : Config) : Code Bool := do
  let w ← Prog.perform (.inbox (.claimWake config))
  match Wake.claimed w.machine config w.store with
  | none => return true
  | some row => do
    emit (.key (.recordWake ⟨row.id,.writing,none⟩))
    queueWake row.id

/-! Queue mode. -/

/-- What the queue call and the checks before it come to; none for an exception that is not
caught. -/
def forwardOutcome (m : Machine) (config : Config) (row : MessageRow) :
    Option (Store.Outcome × Str) :=
  let uncertain (exc : Exc) : Option (Store.Outcome × Str) :=
    if exc.kind = .other then none
    else some (.queueUncertain,exc.name ++ str "; no automatic retry")
  match m.threadRow config.codexHome config.thread with
  | none => uncertain (valueError "Codex thread missing or archived")
  | some thread =>
    if thread.archived then uncertain (valueError "Codex thread missing or archived")
    else match queuedText m config row with
      | .error exc => uncertain exc
      | .ok _ =>
        match m.queue with
        | .raised exc => uncertain exc
        | .exited code stdout =>
          if code ≠ 0 then
            some (.queueFailed,str "Codex queue exited " ++ Json.dumpsInt code)
          else some (.queued,(queuedMessageId stdout).getD
            (str "CLI acknowledged; consumption unconfirmed"))

/-- `dispatch` in queue mode, for the oldest received row. -/
def forward (config : Config) (row : MessageRow) : Code Bool := do
  let m ← read .machine (·.machine)
  if ¬ enrolled m config row.peer then
    emit (.inbox (.setStatus row.peer row.id .held
      (str "Message belongs to a previously enrolled peer")))
    return true
  else if HOP_LIMIT ≤ row.hops.length then
    emit (.inbox (.setStatus row.peer row.id .held
      (str "Hop limit reached; available through read")))
    return true
  else
    let w ← Prog.perform (.inbox (.claimForwarding row.peer row.id))
    if w.store.forwards row.peer row.id then
      let m ← read .machine (·.machine)
      match forwardOutcome m config row with
      | none => return false
      | some (outcome,detail) => do
        emit (.inbox (.setStatus row.peer row.id outcome detail))
        return true
    else return true

/-- `dispatch` where nothing is waiting to be sent. -/
def dispatchInbox (config : Config) : Code Bool := do
  let phase ← read .phase (·.store.keys.phase)
  if phase = some .interrupted then return true
  else
    let mode ← read .delivery (·.store.keys.delivery)
    if mode = some .auto then wakeIdle config
    else
      let mode ← read .delivery (·.store.keys.delivery)
      if mode ≠ some .queue then return true
      else
        let remaining ← read .remaining (·.store.keys.remaining)
        if ¬ available remaining then return true
        else
          let pending ← read .inbox (·.store.pending)
          match pending with
          | [] => return true
          | row::_ => forward config row

/-- `dispatch(store, config)`. -/
def dispatch (U : Interp) (config : Config) : Code Bool := do
  let row ← read .outgoing (·.store.nextPending)
  match row with
  | some row => dispatchOutgoing U config row
  | none => dispatchInbox config

end PeerChat
