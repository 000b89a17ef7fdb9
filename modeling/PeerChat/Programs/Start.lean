import PeerChat.Programs.Listener

/-! Starting, restoring and stopping a bridge. A process that `start_bridge` spawns only waits to
be seen while its parent polls, so a recovery is the start followed by the listener. -/
namespace PeerChat
open Python Wire Interleaving

/-- The arguments of `start`. -/
structure StartArgs where
  thread : Str
  recover : Bool := false
  ownerPid : Option Pid := none
  ownerIdentity : Option Str := none
  /-- The peer to enroll, from the arguments that select one. -/
  requested : Option (Except Exc PeerRecord) := none
  budget : Option Budget := none
  delivery : Option Delivery := none
  /-- The socket of a new bridge. -/
  socket : Str := []

/-- The listener that the runtime record names is alive. -/
def runtimeLive (m : Machine) (runtime : Option Runtime) : Bool :=
  match runtime with
  | some r => m.processIdentity r.pid == r.identity
  | none => false

/-- Does a listener predate unlimited windows? -/
def incompatible (m : Machine) (runtime : Option Runtime) (budget : Option Budget) : Bool :=
  budget = some .unlimited &&
    match runtime with
    | some r => r.protocolVersion < 4 && m.processIdentity r.pid == r.identity
    | none => false

/-- The checks of `start_bridge` on the owner; the result is its pid and identity. -/
def checkOwner (m : Machine) (args : StartArgs) (previous : Option Config) :
    Except Exc (Pid × Str) :=
  match args.ownerPid.orElse fun _ => (previous.map (·.ownerPid)).orElse fun _ => m.hookOwner with
  | none => .error (valueError "Cannot find owning Codex process; pass --owner-pid")
  | some owner =>
    match m.processIdentity owner with
    | none => .error (valueError "Owning Codex process exited or changed identity")
    | some identity =>
      if args.ownerIdentity.getD [] ≠ [] ∧ args.ownerIdentity ≠ some identity then
        .error (valueError "Owning Codex process exited or changed identity")
      else match previous with
        | some c =>
          if c.thread ≠ args.thread ∨ c.codexHome ≠ m.commandHome then
            .error (valueError "Saved bridge belongs to another thread or Codex home")
          else .ok (owner,identity)
        | none => .ok (owner,identity)

/-- The peer to enroll, with its key. -/
def checkRequested (m : Machine) (args : StartArgs) (previous : Option Config) :
    Except Exc (Option (Str × PeerRecord)) :=
  match args.requested with
  | some (.error exc) => .error exc
  | some (.ok record) =>
    match normalise m record with
    | some r => .ok (some r)
    | none => .error (valueError "Peer record is incomplete")
  | none =>
    match previous with
    | some c => if allPeers m c.toPeerTable = [] then
        .error (valueError "Select a peer before starting a new bridge") else .ok none
    | none => .error (valueError "Select a peer before starting a new bridge")

/-- The configuration that `start_bridge` writes first. -/
def startConfig (m : Machine) (args : StartArgs) (previous : Option Config) (owner : Pid)
    (identity executable : Str) : Config :=
  match previous with
  | some c => { c with ownerPid := owner, ownerIdentity := identity, codexBin := executable, supervision := true }
  | none => {
      thread := args.thread
      socket := args.socket
      codexHome := m.commandHome
      ownerPid := owner
      ownerIdentity := identity
      codexBin := executable
      supervision := true }

/-- `seed_lifecycle(store, state_root)`. -/
def seedSavedHook : Code Unit := do
  let config ← read .config (·.store.keys.config)
  match config with
  | none => .ret ()
  | some config => do
    let saved ← read .machine fun w => savedEvidence w.machine config
    match saved with
    | none => .ret ()
    | some saved => emit (.key (.seedLifecycle config.ownerIdentity saved))

/-- Waiting for the process of a runtime record to go; the number bounds the polls. -/
def waitGone (runtime : Option Runtime) : ℕ → Code Bool
  | 0 => .ret false
  | k+1 => do
    let live ← read .machine fun w => runtimeLive w.machine runtime
    if live then waitGone runtime k else .ret true

/-- The three writes of an explicit or first budget. -/
def putWindow (budget : Budget) : Code Unit := do
  emit (.key (.putBudget .remaining budget))
  emit (.key (.putBudget .wakeRemaining budget))
  emit (.key (.putBudget .budgetLimit budget))

/-- The writes of the peer table and of the default destination. -/
def writePeers (requested : Option (Str × PeerRecord)) (config : Config) : Code Unit := do
  let config ← (match requested with
    | some (key,record) => do
      let w ← Prog.perform (.key (.enroll key record))
      return (PeerChat.enroll w.machine key record w.store.keys).config.getD config
    | none => do
      let m ← read .machine (·.machine)
      let config := { config with peers := some (allPeers m config.toPeerTable) }
      emit (.key (.putConfig config))
      return config)
  if truthy config.defaultPeer then return ()
  else
    let m ← read .machine (·.machine)
    let first := (allPeers m config.toPeerTable).head?.map (·.1)
    emit (.key (.putConfig { config with defaultPeer := first }))

/-- The transaction for a changed owner. -/
def writeOwner (previous : Option Config) (identity : Str) : Code Unit :=
  match previous with
  | none => .ret ()
  | some c =>
    if c.ownerIdentity = identity then .ret ()
    else do
      let seen ← read .hookSeen (·.store.keys.hookSeen)
      emit (.key (.changeOwner (seen.bind (·.ownerIdentity) ≠ some identity)))

/-- The end of `start_bridge`: an old listener is stopped, then the flag is cleared for the new
one. True where a listener is spawned. -/
def replaceListener (runtime : Option Runtime) (live : Bool) : Code Bool := do
  if live ∧ 6 ≤ (runtime.map (·.protocolVersion)).getD 1 then return false
  else if live then
    emit (.key (.putStop true))
    let gone ← waitGone runtime 120
    if gone then
      emit (.key (.putStop false))
      return true
    else return false
  else
    emit (.key (.putStop false))
    return true

/-- A new bridge gets a delivery mode. -/
def writeMode (args : StartArgs) (previous : Option Config) : Code Unit :=
  if previous.isNone then emit (.key (.putDelivery (args.delivery.getD .inbox))) else .ret ()

/-- A new bridge, and an explicit budget, open a window. -/
def writeWindow (args : StartArgs) (previous : Option Config) : Code Unit :=
  if args.budget.isSome ∨ previous.isNone then putWindow (args.budget.getD .unlimited) else .ret ()

/-- `start_bridge` after its checks. -/
def writeBridge (args : StartArgs) (previous : Option Config)
    (requested : Option (Str × PeerRecord)) (config : Config) (runtime : Option Runtime)
    (live : Bool) : Code Bool := do
  writeOwner previous config.ownerIdentity
  emit (.key (.putConfig config))
  writePeers requested config
  writeMode args previous
  writeWindow args previous
  seedSavedHook
  replaceListener runtime live

/-- `start_bridge` after the check of the stop flag. An exception is the result false. -/
def startChecked (args : StartArgs) (previous : Option Config) : Code Bool := do
  let m ← read .machine (·.machine)
  match checkOwner m args previous with
  | .error _ => return false
  | .ok (owner,identity) => do
    let runtime ← read .runtime (·.store.keys.runtime)
    let m ← read .machine (·.machine)
    let live := runtimeLive m runtime
    if incompatible m runtime args.budget ∨ (live ∧ previous.map (·.ownerIdentity) ≠ some identity) then
      return false
    else match checkRequested m args previous, m.processExe owner with
      | .ok requested, some executable => do
        let config := startConfig m args previous owner identity executable
        match m.validateSocketPath config.socket with
        | .error _ => return false
        | .ok () => writeBridge args previous requested config runtime live
      | _, _ => return false

/-- `start_bridge(args, store, state)`; true where it spawns a listener. -/
def startBridge (args : StartArgs) : Code Bool := do
  let previous ← read .config (·.store.keys.config)
  if args.recover then
    let stop ← read .stop (·.store.keys.stop)
    if stop ∨ (previous.any fun c => ¬ c.supervision) then return false
    else startChecked args previous
  else startChecked args previous

/-- The `stop` command: the configuration is read in one statement and written, with the flag, in
a later transaction. -/
def stop : Code Unit := do
  let config ← read .config (·.store.keys.config)
  emit (.key (.stopBridge config))

/-- `_restore --owner-pid PID`, with the registry's row for that owner; the spawned start gets no
`--recover` and selects no peer. True where a listener is spawned. -/
def restore (row : Option Registration) (args : StartArgs) : Code Bool := do
  let config ← read .config (·.store.keys.config)
  match row, config with
  | some row, some config => do
    let stop ← read .stop (·.store.keys.stop)
    if stop then return false
    else
      let live ← read .machine fun w => ownerLive w.machine config
      if live then return false
      else
        let runtime ← read .runtime (·.store.keys.runtime)
        let gone ← waitGone runtime 120
        if ¬ gone then return false
        else
          let identity ← read .machine fun w => w.machine.processIdentity row.ownerPid
          if identity ≠ some row.ownerIdentity then return false
          else
            let stop ← read .stop (·.store.keys.stop)
            if stop then return false
            else
              emit (.key .nullWake)
              startBridge { args with
                recover := false
                ownerPid := some row.ownerPid
                requested := none }
  | _, _ => return false

/-- A start or restoration, and the listener it spawns. -/
def withListener (U : Interp) (pid : Pid) (passes : List Bool) (start : Code Bool) :
    Code Unit := do
  let spawned ← start
  if spawned then serve U pid passes else .ret ()

end PeerChat
