import PeerChat.Programs.Start

/-! The remaining commands of the owner's session: sending, the delivery mode and window, and the
writes of `connect`. -/
namespace PeerChat
open Python Wire Interleaving

/-- The arguments of `send`: a fresh id, the text, and the keys that the selectors name. -/
structure SendArgs where
  id : Uuid
  body : Str
  target : Option Str := none
  replyTo : Option Str := none

/-- Is the body blank, too long or reserved? -/
def refusesBody (U : Interp) (body : Str) : Bool :=
  strip body = [] || nestedMarker U body ||
    match Utf8.encode body with
    | some bytes => MAX_LINE-1024 < bytes.length
    | none => true

/-- The destination without `--to` and `--reply-to`. -/
def defaultTarget (m : Machine) (config : Config) : Option Str :=
  let peers := allPeers m config.toPeerTable
  let default := if truthy config.defaultPeer then config.defaultPeer else config.legacyIdentity
  match default with
  | some key => if peers.any (·.1 == key) then some key else
      if peers.length = 1 then peers.head?.map (·.1) else none
  | none => if peers.length = 1 then peers.head?.map (·.1) else none

/-- The end of `send`. -/
def enqueueTo (args : SendArgs) : Option Str → Code Bool
  | some target => do
    emit (.sending (.enqueue args.id.text args.body target))
    return true
  | none => return false

/-- `send`; the result says whether the message was enqueued. -/
def send (U : Interp) (args : SendArgs) : Code Bool := do
  let live ← read .runtime fun w => runtimeLive w.machine w.store.keys.runtime
  if ¬ live ∨ refusesBody U args.body then return false
  else
    let config ← read .config (·.store.keys.config)
    match config with
    | none => return false
    | some config =>
      match args.replyTo with
      | some replied => do
        let known ← read .inbox fun w =>
          (w.store.messages.rows.filter fun r => r.id = replied).map (·.peer)
        let choices := known.filter fun p => args.target = none || args.target = some p
        let m ← read .machine (·.machine)
        match choices with
        | [target] =>
          if enrolled m config target then do
            emit (.key (.putReplyTo args.id.text replied))
            enqueueTo args (some target)
          else return false
        | _ => return false
      | none => do
        let m ← read .machine (·.machine)
        enqueueTo args (args.target.orElse fun _ => defaultTarget m config)

/-- `configure_delivery(store, thread, mode, budget, state_root)`. -/
def configure (mode : Delivery) (budget : Option Budget) : Code Bool := do
  let refused ← read .runtime fun w => incompatible w.machine w.store.keys.runtime budget
  if refused then return false
  else
    emit (.key (.configureDelivery mode budget))
    return true

/-- `enable_supervision(state_root)`, on one of the bridges that it finds. -/
def enableSupervision : Code Unit := emit (.key .setSupervision)

/-- The write of `connect` on the other session's store. -/
def connectSeed (phase : Phase) : Code Unit := emit (.key (.seedPhase phase))

/-- The writes of `connect` on the initiating session's own store. -/
def connectOwn (key : Str) : Code Unit := do
  emit (.key (.seedPhase .active))
  emit (.key (.setDefaultPeer key))

end PeerChat
