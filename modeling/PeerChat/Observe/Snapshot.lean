import PeerChat.Interleaving.Alone
import PeerChat.System.Frame
import PeerChat.Watch.Watchdog

/-! The read-only status of one bridge. It has a reader of the meta table of its own, which takes a
value of null for a missing one where the store's does not. -/
namespace PeerChat
open Python Interleaving

/-- What the meta table holds under a key. -/
inductive Cell (α : Type)
  | missing
  | null
  | value (a : α)

namespace Cell
variable {α : Type}

/-- The cell of a key that has no value: it is null if somebody has put null under the key. -/
def of (nulled : Bool) : Option α → Cell α
  | some a => .value a
  | none => if nulled then .null else .missing

/-- `meta.get(key)`, where `_read_db` has loaded the row if there is one. -/
def get : Cell α → Option α
  | .value a => some a
  | .missing | .null => none

@[simp] theorem get_of (nulled : Bool) (a : Option α) : (Cell.of nulled a).get = a := by
  cases a <;> cases nulled <;> rfl

end Cell

/-- A `get` function of the meta table with a default for missing keys. -/
structure Reader where
  get : {α : Type} → Cell α → Option α → Option α
  get_value : ∀ {α : Type} (a : α) (default : Option α), get (.value a) default = some a
  get_missing : ∀ {α : Type} (default : Option α), get .missing default = default

attribute [simp] Reader.get_value Reader.get_missing

/-- Under a key without null, every reader finds the value, or else its default. -/
@[simp] theorem Reader.get_of (r : Reader) {α : Type} (a default : Option α) :
    r.get (Cell.of false a) default = a.orElse fun _ => default := by
  cases a <;> simp [Cell.of]

/-- `Store.get(key, default)`. -/
def storeGet : Reader where
  get
    | .missing, default => default
    | .null, _ => none
    | .value a, _ => some a
  get_value _ _ := rfl
  get_missing _ := rfl

/-- `_MetaView.get(key, default)`. -/
def metaViewGet : Reader where
  get
    | .missing, default | .null, default => default
    | .value a, _ => some a
  get_value _ _ := rfl
  get_missing _ := rfl

/-- The rows of the meta table that the state and the phase of a bridge are read from. -/
structure Rows where
  config : Cell Config
  runtime : Cell Runtime
  delivery : Cell Delivery
  remaining : Cell Budget
  wakeRemaining : Cell Budget
  phase : Cell Phase
  hookSeen : Cell HookSeen
  stop : Cell Bool
  lifecycleReconciled : Cell TurnEnd

/-- The access puts null under the key. -/
def Op.putsNull : Op → MetaKey → Bool
  | .key .nullWake, what => what = .wakePending
  | .key (.putRuntime none), what => what = .runtime
  | _, _ => false

/-- The keys that some access so far has put null under. -/
def nulled (T : List (Step World Op)) (key : MetaKey) : Bool := T.any (·.label.putsNull key)

/-- The rows of a store. -/
def Meta.rows (null : MetaKey → Bool) (k : Meta) : Rows where
  config := .of (null .config) k.config
  runtime := .of (null .runtime) k.runtime
  delivery := .of (null .delivery) k.delivery
  remaining := .of (null .remaining) k.remaining
  wakeRemaining := .of (null .wakeRemaining) k.wakeRemaining
  phase := .of (null .phase) k.phase
  hookSeen := .of (null .hookSeen) k.hookSeen
  stop := .value k.stop
  lifecycleReconciled := .of (null .lifecycleReconciled) k.lifecycleReconciled

/-- `lifecycle_observed(store)`, for a store with either `get`. -/
def observedBy (r : Reader) (c : Rows) : Bool :=
  match r.get c.hookSeen none with
  | some seen => seen.routing = .matched && seen.event.lifecycle
  | none => false

/-- `delivery_state(store)`, for a store with either `get`. -/
def deliveryStateBy (r : Reader) (c : Rows) : DeliveryState :=
  let mode := r.get c.delivery (some .inbox)
  if mode = some .inbox then .manualInbox
  else if r.get c.phase none = some .interrupted then .pausedInterrupted
  else if ¬ available (r.get c.remaining (some (.count 0))) then .pausedBudget
  else if mode = some .queue then .afterTurnQueue
  else if ¬ observedBy r c then .awaitingLifecycleHook
  else
    let phase := r.get c.phase (some .unknown)
    if phase = some .unknown then .awaitingLifecycleHook
    else if mode = some .auto ∧ phase = some .idle ∧
        ¬ available (r.get c.wakeRemaining (r.get c.remaining (some (.count 0)))) then
      .pausedWakeBudget
    else if phase = some .active then .activeHooks
    else if mode = some .live then .idleLiveOnly
    else .idleWakeEnabled

/-! The states that the status reports. -/

inductive RuntimeState
  | running
  | listenerDown
  | ownerOffline
  | stopped
  | unconfigured
  deriving DecidableEq

/-- `_socket_ok(path)`. -/
def socketOk (m : Machine) (path : Str) : Bool :=
  match m.lstat path with
  | .ok info => info.isSocket && info.ownedByUser
  | .error _ => false

/-- `_runtime_state(meta)`, with whether the listener is alive. -/
def runtimeState (m : Machine) (c : Rows) : RuntimeState × Bool :=
  match c.config.get with
  | none => (.unconfigured,false)
  | some config =>
    let listenerAlive := match c.runtime.get with
      | some runtime => Watch.alive m (some runtime.pid) runtime.identity
      | none => false
    if c.stop.get = some true then (.stopped,listenerAlive)
    else if ¬ Watch.alive m (some config.ownerPid) (some config.ownerIdentity) then
      (.ownerOffline,listenerAlive)
    else if listenerAlive && socketOk m config.socket then (.running,true)
    else (.listenerDown,listenerAlive)

/-- The part of `snapshot` that corrects the phase it has read; and the evidence it shows. -/
def corrected (m : Machine) (c : Rows) : Rows × Option TurnEnd :=
  if (runtimeState m c).1 ≠ .running then (c,none)
  else
    match c.config.get, c.hookSeen.get with
    | some config, some seen =>
      if c.phase.get = some .active ∨ c.phase.get = some .idle then
        match turnEndEvidence m config seen with
        | some evidence => ({ c with phase := .value (endPhase evidence) },some evidence)
        | none => (c,none)
      else
        match c.lifecycleReconciled.get with
        | some evidence =>
          if some evidence.turn = seen.turn ∧ evidence.hookTime = seen.time ∧
              evidence.ownerIdentity = config.ownerIdentity then (c,some evidence)
          else (c,none)
        | none => (c,none)
    | _, _ => (c,none)

/-- `row["delivery_state"]`. -/
inductive ShownState
  | configured (state : DeliveryState)
  | runtime (state : RuntimeState)
  | awaitingListenerUpgrade
  deriving DecidableEq

/-- The fields of the status that say in which state the bridge is. -/
structure Shown where
  runtimeState : RuntimeState
  listenerAlive : Bool
  socketOk : Bool
  phase : Phase
  phaseEvidence : Option TurnEnd
  evidenceStale : Bool
  deliveryConfigured : DeliveryState
  deliveryState : ShownState

def shown (m : Machine) (read : Rows) : Shown :=
  let (state,listenerAlive) := runtimeState m read
  let (c,evidence) := corrected m read
  let configured := deliveryStateBy metaViewGet c
  let version : ℤ := match c.runtime.get with
    | some runtime => runtime.protocolVersion
    | none => 1
  let phase := c.phase.get.getD .unknown
  { runtimeState := state
    listenerAlive := listenerAlive
    socketOk := match c.config.get with
      | some config => PeerChat.socketOk m config.socket
      | none => false
    phase := phase
    phaseEvidence := evidence
    evidenceStale := state ≠ .running && (phase ≠ .unknown || c.hookSeen.get.isSome)
    deliveryConfigured := configured
    deliveryState :=
      if state ≠ .running then .runtime state
      else if evidence.isSome ∧ version < 6 ∧ configured = .idleWakeEnabled then
        .awaitingListenerUpgrade
      else .configured configured }

/-- `_read_db(path)`, without the counts of messages. -/
def readDb (null : MetaKey → Bool) : Code Rows := do
  let config ← read .config fun w => (w.store.keys.rows null).config
  let runtime ← read .runtime fun w => (w.store.keys.rows null).runtime
  let delivery ← read .delivery fun w => (w.store.keys.rows null).delivery
  let remaining ← read .remaining fun w => (w.store.keys.rows null).remaining
  let wakeRemaining ← read .remaining fun w => (w.store.keys.rows null).wakeRemaining
  let phase ← read .phase fun w => (w.store.keys.rows null).phase
  let hookSeen ← read .hookSeen fun w => (w.store.keys.rows null).hookSeen
  let stop ← read .stop fun w => (w.store.keys.rows null).stop
  let reconciled ← read .phase fun w => (w.store.keys.rows null).lifecycleReconciled
  return {
    config := config
    runtime := runtime
    delivery := delivery
    remaining := remaining
    wakeRemaining := wakeRemaining
    phase := phase
    hookSeen := hookSeen
    stop := stop
    lifecycleReconciled := reconciled }

/-- `snapshot(state_root, thread)` of a bridge whose files are in order. -/
def snapshot (null : MetaKey → Bool) : Code Shown := do
  let rows ← readDb null
  let m ← read .machine (·.machine)
  return shown m rows

/-! What the readers find. -/

/-- The readers differ where a key holds null, so under a store that has none of it under the keys of
the delivery state, that state is the same for either. -/
theorem deliveryStateBy_rows (r : Reader) {null : MetaKey → Bool}
    (h : ∀ key, null key = true → key = .runtime ∨ key = .wakePending) (k : Meta) :
    deliveryStateBy r (k.rows null) = deliveryState k := by
  have hnull : ∀ key, key ≠ .runtime → key ≠ .wakePending → null key = false := by
    intro key hr hw
    cases hkey : null key with
    | false => rfl
    | true =>
      cases h key hkey with
      | inl h => exact absurd h hr
      | inr h => exact absurd h hw
  have hobserved : observedBy r (k.rows null) = lifecycleObserved k := by
    unfold observedBy lifecycleObserved Meta.rows
    rw [hnull .hookSeen (by decide) (by decide),r.get_of]
    cases k.hookSeen <;> rfl
  unfold deliveryStateBy deliveryState wakesLeft
  rw [hobserved]
  unfold Meta.rows
  rw [hnull .delivery (by decide) (by decide),hnull .phase (by decide) (by decide),
    hnull .remaining (by decide) (by decide),hnull .wakeRemaining (by decide) (by decide)]
  simp only [Reader.get_of]
  cases k.delivery <;> cases k.phase <;> cases k.remaining <;> cases k.wakeRemaining <;>
    simp [available]

@[simp] theorem snapshot_value (null : MetaKey → Bool) (w : World) :
    (snapshot null).value w = shown w.machine (w.store.keys.rows null) := rfl

/-- It changes nothing. -/
@[simp] theorem snapshot_run (null : MetaKey → Bool) (w : World) : (snapshot null).run w = w := rfl

end PeerChat
