import PeerChat.Programs.Dispatch

/-! The listener process: its startup, and the passes of its dispatcher thread. The connections
it accepts run as programs of their own. -/
namespace PeerChat
open Python Wire Interleaving

/-- `reconcile(store, config)`. -/
def reconcileTurn (config : Config) : Code Unit := do
  let previous ← read .phase (·.store.keys.phase)
  match previous with
  | none => return ()
  | some phase =>
    if phase ≠ .active ∧ phase ≠ .idle then return ()
    else
      let stop ← read .stop (·.store.keys.stop)
      let observed ← read .hookSeen fun w => lifecycleObserved w.store.keys
      let seen ← read .hookSeen (·.store.keys.hookSeen)
      match seen with
      | none => return ()
      | some seen =>
        if stop ∨ ¬ observed then return ()
        else
          let w ← read .machine id
          match turnEndEvidence w.machine config seen with
          | none => return ()
          | some evidence =>
            if phase = endPhase evidence ∧ w.store.keys.lifecycleReconciled = some evidence then
              return ()
            else emit (.key (.reconcile ⟨config,phase,seen,evidence⟩))

/-- The supervised part of a pass: the phase is corrected while messages wait. -/
def correctPhase (config : Config) : Code Unit := do
  let phase ← read .phase (·.store.keys.phase)
  if phase = some .active ∨ phase = some .idle then
    let waiting ← read .inbox fun w => w.store.messages.rows.any fun r => r.status = .received
    if waiting then reconcileTurn config else return ()
  else return ()

def supervise (config : Config) (wanted : Bool) : Code Unit :=
  if wanted then correctPhase config else .ret ()

/-- `process_identity(config["owner_pid"]) == config["owner_identity"]`. -/
def ownerLive (m : Machine) (config : Config) : Bool :=
  m.processIdentity config.ownerPid = some config.ownerIdentity

/-- One pass of the worker; `due` says whether its second has passed. The result says whether
the worker goes on. -/
def workerPass (U : Interp) (due : Bool) : Code Bool := do
  let config ← read .config (·.store.keys.config)
  match config with
  | none => return false
  | some config => do
    let live ← read .machine fun w => ownerLive w.machine config
    supervise config (config.supervision && due && live)
    if live then dispatch U config else return config.supervision

/-- The worker, for as many passes as `due` has entries. -/
def worker (U : Interp) : List Bool → Code Unit
  | [] => .ret ()
  | due::rest => do
    let goesOn ← workerPass U due
    if goesOn then worker U rest else .ret ()

/-- The startup of a listener that has the lock and the socket. -/
def startup (pid : Pid) (config : Config) : Code Unit := do
  emit .restart
  emit (.key (.putStop false))
  let identity ← read .machine fun w => w.machine.processIdentity pid
  emit (.key (.putRuntime (some ⟨pid,identity,config.socket,6⟩)))

/-- `serve(state)` for a process and the passes it lives through. -/
def serve (U : Interp) (pid : Pid) (passes : List Bool) : Code Unit := do
  let config ← read .config (·.store.keys.config)
  let stop ← read .stop (·.store.keys.stop)
  if stop then .ret ()
  else match config with
    | none => .ret ()
    | some config => do
      startup pid config
      worker U passes
      emit (.key (.putRuntime none))

end PeerChat
