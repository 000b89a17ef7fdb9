import PeerChat.Bridge.Config
import Mathlib.Algebra.Order.Ring.Rat

/-! The watchdog: one pass over one saved bridge. It sees the bridge's saved keys and the process
table, and starts a listener again when there is none, with a backoff and a budget of attempts. A tick
makes this pass over every bridge, and nothing else writes the keys of the pass. -/
namespace PeerChat.Watch
open Python Wire

/-- Seconds, as `time.time()` counts them. -/
abbrev Seconds := ℚ

def BASE_DELAY_S : Seconds := 10
def MAX_DELAY_S : Seconds := 300
def MAX_ATTEMPTS : ℕ := 6
def WINDOW_S : Seconds := 3600
def STABLE_S : Seconds := 30

/-- The values of `last_result`. -/
inductive Outcome
  | paused
  | skipped
  | attempting
  | attemptingEndpoint
  | started
  | failed
  | endpointKept
  | signalledOldListener
  | recovered
  deriving DecidableEq

/-- The saved `watch` key. -/
structure WatchState where
  windowStart : Seconds
  attempts : ℕ := 0
  nextAt : Seconds := 0
  lastError : Option Str := none
  lastResult : Option Outcome := none
  lastAttempt : Option Seconds := none
  recoveredAt : Option Seconds := none
  pausedUntil : Option Seconds := none

structure RecoveryEvent where
  id : Str
  time : Seconds
  reason : Str
  attempt : ℕ

/-- The keys that the watchdog writes. -/
structure Keys where
  watch : Option WatchState := none
  restoreError : Option Str := none
  recoveryEvent : Option RecoveryEvent := none

/-- The end of a recovery command. -/
inductive CommandEnd
  | exited (code : ℤ) (stderr : Str)
  /-- Not started or timed out, with the name of the exception. -/
  | raised (name : Str)

/-- What one pass meets. -/
structure Sight where
  now : Seconds
  /-- The machine that the pass inspects. -/
  machine : Machine
  /-- The machine when an identity is verified again before an action. -/
  later : Machine
  readable : Bool := true
  config : Option Config := none
  runtime : Option Runtime := none
  stop : Bool := false
  /-- The registered sessions of the bridge's Codex home. -/
  sessions : List Registered := []
  /-- Whether the signal could be sent. -/
  killed : Bool := true
  command : CommandEnd := .exited 0 []
  /-- The exception with which the endpoint could not be started. -/
  endpointError : Option Str := none
  eventId : Str := []
  /-- How many puts of the first and of the second record are committed; the next one fails, or the
  watchdog dies. -/
  firstPuts : ℕ := 3
  secondPuts : ℕ := 3

/-! The state of a pass. -/

/-- `_alive`. -/
def alive (m : Machine) (pid : Option Pid) (identity : Option Str) : Bool :=
  match pid, identity with
  | some pid, some identity => m.processIdentity pid = some identity
  | _, _ => false

def backoffDelay (attempts : ℕ) : Seconds := min MAX_DELAY_S (BASE_DELAY_S*2^(attempts-1))

/-- `_watch_state`: a window that has ended is replaced by one that begins now. -/
def watchState (saved : Option WatchState) (now : Seconds) : WatchState :=
  match saved with
  | none => { windowStart := now }
  | some state =>
    if WINDOW_S ≤ now - state.windowStart then
      { state with windowStart := now, attempts := 0, pausedUntil := none }
    else state

/-- Python's truth of an optional time. -/
def truthy (t : Option Seconds) : Option Seconds := t.filter fun t => t ≠ 0

/-- `_find_replacement`: a live registered owner of the same thread in the same Codex home. -/
def findReplacement (m : Machine) (config : Config) (sessions : List Registered) : Option Registered :=
  if config.codexHome = [] then none
  else sessions.find? fun row => row.thread = some config.thread &&
    m.resolve (row.codexHome.getD []) = m.resolve config.codexHome &&
    alive m row.ownerPid row.ownerIdentity

/-! The actions. -/

abbrev Put := Keys → Keys

def putWatch (state : WatchState) : Put := fun k => { k with watch := some state }

def putRestoreError (error : Option Str) : Put := fun k => { k with restoreError := error }

def putRecoveryEvent (event : RecoveryEvent) : Put := fun k => { k with recoveryEvent := some event }

/-- `_record`: its puts commit one by one. The result says whether all of them have. -/
def record (committed : ℕ) (puts : List Put) (k : Keys) : Keys × Bool :=
  ((puts.take committed).foldl (fun k put => put k) k,puts.length ≤ committed)

inductive Action
  /-- A recovery command or an endpoint has been spawned. -/
  | spawn
  | signal
  /-- The attempts have been reset because the listener is stable. -/
  | reset
  deriving DecidableEq

/-- `_budget_exhausted`. -/
def budgetExhausted (state : WatchState) : Option Seconds :=
  if MAX_ATTEMPTS < state.attempts+1 then some (state.windowStart+WINDOW_S) else none

/-- What a paused attempt records. -/
def WatchState.pause (state : WatchState) (paused : Seconds) : WatchState :=
  { state with pausedUntil := some paused, nextAt := paused, lastResult := some .paused }

/-- What is recorded before a spawn: the attempt counts even if the watchdog dies in it. -/
def WatchState.attempt (state : WatchState) (now : Seconds) (outcome : Outcome) : WatchState :=
  { state with
    attempts := state.attempts+1
    nextAt := now+backoffDelay (state.attempts+1)
    lastAttempt := some now
    lastResult := some outcome
    pausedUntil :=
      if MAX_ATTEMPTS ≤ state.attempts+1 then some (state.windowStart+WINDOW_S) else none }

/-- The error of a recovery command, if it has failed. -/
def CommandEnd.failure : CommandEnd → Option (Option Str)
  | .exited code stderr =>
    if code = 0 then none
    else
      let tail := strip (stderr.drop (stderr.length-200))
      some (if tail = [] then none else some tail)
  | .raised name => some (some name)

def RESTORE_FAILED : String :=
  "Automatic listener recovery failed; see " ++ "\x60peer-chat status\x60 watch fields."

/-- What is recorded after the recovery command. -/
def afterCommand (s : Sight) (state : WatchState) : List Put :=
  match s.command.failure with
  | none => [putWatch { state with
      lastResult := some .started, lastError := none, recoveredAt := some s.now },putRestoreError none]
  | some error =>
    let state := if MAX_ATTEMPTS ≤ state.attempts then
      { state with nextAt := state.pausedUntil.getD state.nextAt } else state
    [putWatch { state with
      lastResult := some .failed, lastError := some (error.getD (str "recovery command failed")) },
      putRestoreError (some (str RESTORE_FAILED))]

/-- `_recover`. -/
def recover (s : Sight) (state : WatchState) (owner : Option Pid × Option Str) (reason : Str)
    (k : Keys) : Keys × List Action :=
  match truthy (budgetExhausted state) with
  | some paused => ((record s.firstPuts [putWatch (state.pause paused)] k).1,[])
  | none =>
    if ¬ alive s.later owner.1 owner.2 then
      ((record s.firstPuts [putWatch { state with
        lastAttempt := some s.now, lastResult := some .skipped,
        lastError := some (str "owner changed before recovery") }] k).1,[])
    else
      let attempted := state.attempt s.now .attempting
      let event : RecoveryEvent := ⟨s.eventId,s.now,reason,attempted.attempts⟩
      let (k,ok) := record s.firstPuts [putWatch attempted,putRecoveryEvent event] k
      if ¬ ok then (k,[])
      else ((record s.secondPuts (afterCommand s attempted) k).1,[.spawn])

/-- `_keep_endpoint`. -/
def keepEndpoint (s : Sight) (state : WatchState) (k : Keys) : Keys × List Action :=
  match truthy (budgetExhausted state) with
  | some paused => ((record s.firstPuts [putWatch (state.pause paused)] k).1,[])
  | none =>
    let attempted := state.attempt s.now .attemptingEndpoint
    let (k,ok) := record s.firstPuts [putWatch attempted] k
    if ¬ ok then (k,[])
    else
      let ended := match s.endpointError with
        | some name => { attempted with lastResult := some .failed, lastError := some name }
        | none => { attempted with lastResult := some .endpointKept, recoveredAt := some s.now }
      ((record s.secondPuts [putWatch ended] k).1,[.spawn])

/-! The pass. -/

/-- A live listener: its attempts are forgotten once it is stable. -/
def watchLive (s : Sight) (state : WatchState) (k : Keys) : Keys × List Action :=
  let stable : Bool := state.recoveredAt.all (STABLE_S ≤ s.now - ·)
  if state.attempts ≠ 0 ∧ stable ∧ state.lastResult ≠ some .recovered then
    ((record s.firstPuts [putWatch { state with
        attempts := 0, nextAt := 0, lastResult := some .recovered, pausedUntil := none,
        lastError := none },putRestoreError none] k).1,
      if s.firstPuts = 0 then [] else [.reset])
  else (k,[])

/-- A listener whose owner is dead, while another owner of the thread is there, is asked to exit. -/
def signalOld (s : Sight) (state : WatchState) (k : Keys) : Keys × List Action :=
  let same := (s.runtime.map fun r => alive s.later (some r.pid) r.identity).getD false
  if same ∧ s.killed then
    ((record s.firstPuts [putWatch { state with
      lastResult := some .signalledOldListener, lastAttempt := some s.now }] k).1,[.signal])
  else (k,[])

/-- No listener is there. -/
def watchDead (s : Sight) (config : Config) (ownerLive : Bool) (replacement : Option Registered)
    (state : WatchState) (k : Keys) : Keys × List Action :=
  if (truthy state.pausedUntil).any (s.now < ·) then (k,[])
  else if s.now < state.nextAt then (k,[])
  else match replacement with
    | some row => recover s state (row.ownerPid,row.ownerIdentity) (str "owner_resumed") k
    | none =>
      if ownerLive then
        recover s state (some config.ownerPid,some config.ownerIdentity) (str "listener_exited") k
      else keepEndpoint s state k

/-- The body of `tick`'s loop, for the bridge of a thread. -/
def watchBridge (thread : Str) (s : Sight) (k : Keys) : Keys × List Action :=
  if ¬ validId thread ∨ ¬ s.readable then (k,[])
  else match s.config with
    | none => (k,[])
    | some config =>
      if ¬ config.supervision ∨ s.stop then (k,[])
      else
        let live := (s.runtime.map fun r => alive s.machine (some r.pid) r.identity).getD false
        let ownerLive := alive s.machine (some config.ownerPid) (some config.ownerIdentity)
        let state := watchState k.watch s.now
        let replacement :=
          if ownerLive then none else findReplacement s.machine config s.sessions
        if live ∧ replacement.isSome then signalOld s state k
        else if live then watchLive s state k
        else watchDead s config ownerLive replacement state k

end PeerChat.Watch
