import PeerChat.Budget.Window

/-! Evidence about the session's turns that reaches the store without a live hook: the phase that
`connect` assumes, the hook saved before the inbox existed, and the end of a turn read from the
rollout. -/
namespace PeerChat
open Python

/-- `_seed_phase`: a phase that is there already stays. -/
def seedPhase (phase : Phase) (k : Meta) : Meta :=
  let phase := if phase = .interrupted then .unknown else phase
  { k with phase := some (k.phase.getD phase) }

/-- The events in `IDLE_EVENTS`. -/
def HookEvent.idle : HookEvent → Bool
  | .sessionStart | .stop => true
  | _ => false

/-- The checks of `seed_lifecycle` before its transaction. -/
def savedEvidence (m : Machine) (config : Config) : Option SavedHook :=
  match m.savedHook config.thread with
  | none => none
  | some saved =>
    if validId config.thread ∧ saved.thread = config.thread ∧ saved.ownerPid = config.ownerPid ∧
        saved.ownerIdentity = config.ownerIdentity ∧ saved.codexHome = config.codexHome ∧
        m.processIdentity config.ownerPid = some config.ownerIdentity ∧ saved.matched ∧
        saved.event.lifecycle ∧ saved.time ≤ m.now ∧
        routingRejection m { event := .other [], sessionId := config.thread, transcript := saved.transcript }
          config false = none then some saved
    else none

/-- Is there evidence that a saved hook must not replace? -/
def newerEvidence (ownerIdentity : Str) (time : Time) (k : Meta) : Bool :=
  match k.hookSeen with
  | some seen => seen.routing = .matched &&
      (seen.ownerIdentity ≠ some ownerIdentity || time ≤ seen.time)
  | none => false

/-- The transaction of `seed_lifecycle`. -/
def seedLifecycle (ownerIdentity : Str) (saved : SavedHook) (k : Meta) : Meta :=
  if newerEvidence ownerIdentity saved.time k then k
  else { k with
    hookSeen := some ⟨saved.time,saved.event,saved.turn,.matched,some saved.ownerIdentity⟩
    phase := some (if saved.event.idle then .idle else .active) }

/-- `turn_end_evidence(config, seen)`. -/
def turnEndEvidence (m : Machine) (config : Config) (seen : HookSeen) : Option TurnEnd :=
  match seen.turn, m.latestEnd config.codexHome config.thread with
  | some turn, some ending =>
    let rollout := (m.threadRow config.codexHome config.thread).bind (·.rolloutPath)
    if seen.routing = .matched ∧ seen.event.active ∧ turn ≠ [] ∧
        seen.ownerIdentity = some config.ownerIdentity ∧ config.ownerIdentity ≠ [] ∧
        m.processIdentity config.ownerPid = some config.ownerIdentity ∧ truthy rollout ∧
        routingRejection m { event := .other [], sessionId := config.thread, transcript := rollout }
          config false = none ∧
        ending.turn = some turn ∧ seen.time ≤ ending.time ∧ ending.time ≤ m.now then
      some ⟨ending.aborted,turn,ending.time,config.ownerIdentity,seen.time⟩
    else none
  | _, _ => none

def endPhase (e : TurnEnd) : Phase := if e.aborted then .interrupted else .idle

/-- What `reconcile` has found before its transaction, all of which must still hold in it. -/
structure Finding where
  config : Config
  phase : Phase
  seen : HookSeen
  evidence : TurnEnd

/-- The transaction of `reconcile`. -/
def reconcile (m : Machine) (f : Finding) (k : Meta) : Meta :=
  if k.stop ∨ k.phase ≠ some f.phase ∨ k.config ≠ some f.config ∨ k.hookSeen ≠ some f.seen ∨
      turnEndEvidence m f.config f.seen ≠ some f.evidence then k
  else { k with phase := some (endPhase f.evidence), lifecycleReconciled := some f.evidence }

end PeerChat
