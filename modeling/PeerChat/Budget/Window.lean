import PeerChat.Hooks.Payload

/-! The allowance of one bridge: its renewal by owner prompts, the owner's configuration of it,
and the readiness that the status commands report. -/
namespace PeerChat
open Python

/-- How prompts begin or contain text that the bridge itself has queued. -/
def EXTERNAL_MARKERS : List Str := [
  str "PEER CHAT DELIVERY NOTICE",
  str "EXTERNAL PEER INBOX NOTICE",
  str "EXTERNAL AGENT MESSAGE",
  str "<cross-session-message",
  str "[Peer bridge transport self-test;",
  str "Peer Chat setup verification continuation,"]

/-- `marker in prompt`. -/
def occursIn (marker prompt : Str) : Bool := prompt.tails.any marker.isPrefixOf

/-- The turn of a payload that counts as the owner's own prompt. -/
def ownerTurn (payload : HookPayload) : Option Str :=
  match payload.event, payload.prompt, payload.turn with
  | .userPromptSubmit, some prompt, some turn =>
    if strip prompt ≠ [] ∧ turn ≠ [] ∧ ¬ EXTERNAL_MARKERS.any (occursIn · prompt) then some turn
    else none
  | _, _, _ => none

/-- Does a prompt of this turn open a new window? -/
def renews (turn : Str) (k : Meta) : Option ℤ :=
  match k.budgetLimit with
  | some (.count limit) =>
    if 0 ≤ limit ∧ limit ≤ 50 ∧ k.budgetOwnerTurn ≠ some turn then some limit else none
  | _ => none

/-- The transaction of `renew_for_owner_prompt`. -/
def renew (turn : Str) (k : Meta) : Meta :=
  match renews turn k with
  | some limit => { k with
      remaining := some (.count limit)
      wakeRemaining := some (.count limit)
      budgetOwnerTurn := some turn }
  | none => k

/-- The keys that one budget is written to. -/
inductive BudgetKey
  | remaining
  | wakeRemaining
  | budgetLimit

/-- `put(key, parse_budget(value))`. -/
def putBudget (key : BudgetKey) (value : Budget) (k : Meta) : Meta :=
  match key with
  | .remaining => { k with remaining := some (parseBudget value) }
  | .wakeRemaining => { k with wakeRemaining := some (parseBudget value) }
  | .budgetLimit => { k with budgetLimit := some (parseBudget value) }

/-- The transaction of `configure_delivery`. -/
def configureDelivery (mode : Delivery) (budget : Option Budget) (k : Meta) : Meta :=
  let k := { k with delivery := some mode }
  match budget with
  | none => k
  | some b => putBudget .budgetLimit b (putBudget .wakeRemaining b (putBudget .remaining b k))

/-- `lifecycle_observed(store)`. -/
def lifecycleObserved (k : Meta) : Bool :=
  match k.hookSeen with
  | some seen => seen.routing = .matched && seen.event.lifecycle
  | none => false

/-- `store.get("wake_remaining", store.get("remaining", 0))`. -/
def wakesLeft (k : Meta) : Option Budget := k.wakeRemaining.orElse fun _ => k.remaining

inductive DeliveryState
  | manualInbox
  | pausedInterrupted
  | pausedBudget
  | afterTurnQueue
  | awaitingLifecycleHook
  | pausedWakeBudget
  | activeHooks
  | idleLiveOnly
  | idleWakeEnabled
  deriving DecidableEq

/-- `delivery_state(store)`. -/
def deliveryState (k : Meta) : DeliveryState :=
  let mode := k.delivery.getD .inbox
  if mode = .inbox then .manualInbox
  else if k.phase = some .interrupted then .pausedInterrupted
  else if ¬ available k.remaining then .pausedBudget
  else if mode = .queue then .afterTurnQueue
  else if ¬ lifecycleObserved k then .awaitingLifecycleHook
  else
    let phase := k.phase.getD .unknown
    if phase = .unknown then .awaitingLifecycleHook
    else if mode = .auto ∧ phase = .idle ∧ ¬ available (wakesLeft k) then .pausedWakeBudget
    else if phase = .active then .activeHooks
    else if mode = .live then .idleLiveOnly
    else .idleWakeEnabled

end PeerChat
