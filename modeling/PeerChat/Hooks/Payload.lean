import PeerChat.Store.Schema

/-! Hook payloads, and the two checks that bind a hook to the bridge's own main session. -/
namespace PeerChat
open Python Wire

def HookEvent.text : HookEvent → Str
  | .sessionStart => str "SessionStart"
  | .userPromptSubmit => str "UserPromptSubmit"
  | .postToolUse => str "PostToolUse"
  | .stop => str "Stop"
  | .other text => text

/-- The events in `EVENTS`, `REGISTRATION_EVENTS` and `LIFECYCLE_EVENTS`, which are the same. -/
def HookEvent.lifecycle : HookEvent → Bool
  | .other _ => false
  | _ => true

/-- The events in `ACTIVE_EVENTS`. -/
def HookEvent.active : HookEvent → Bool
  | .userPromptSubmit | .postToolUse => true
  | _ => false

/-- The fields of a payload that the program reads. -/
structure HookPayload where
  event : HookEvent
  sessionId : Str
  turn : Option Str := none
  prompt : Option Str := none
  transcript : Option Str := none
  /-- `agent_id`, `agent_type` or `agent_transcript_path` is there. -/
  subagent : Bool := false

/-- The part of a registry record that a hook uses. -/
structure Registration where
  ownerPid : Pid
  ownerIdentity : Str

/-- `register(payload, home, state_root)` as far as its verdict goes; the file it writes is read
through the machine. -/
def register (m : Machine) (payload : HookPayload) : Option Registration :=
  let home := m.commandHome
  if ¬ validId payload.sessionId ∨ payload.subagent ∨ ¬ payload.event.lifecycle then none
  else if ¬ (m.environThread.getD [] = [] ∨ m.environThread = some payload.sessionId) then none
  else match m.hookOwner with
    | none => none
    | some pid =>
      if pid ≤ 0 then none
      else match m.processIdentity pid with
        | none => none
        | some identity =>
          if m.isChild home payload.sessionId then none
          else
            let rollout := (m.threadRow home payload.sessionId).bind (·.rolloutPath)
            match payload.transcript, rollout with
            | some (c::cs), some (d::ds) =>
              if m.resolve (c::cs) = m.resolve (d::ds) then some ⟨pid,identity⟩ else none
            | _, _ => some ⟨pid,identity⟩

/-- `routing_rejection(payload, config)`: why a hook is not the main session's, or none. -/
def routingRejection (m : Machine) (payload : HookPayload) (config : Config)
    (checkEnvironment : Bool) : Option Str :=
  if payload.sessionId ≠ config.thread then some (str "session_id mismatch")
  else if payload.subagent then some (str "subagent marker")
  else if checkEnvironment ∧ ¬ (m.environThread.getD [] = [] ∨
      m.environThread = some config.thread) then some (str "CODEX_THREAD_ID mismatch")
  else match payload.transcript with
    | some (c::cs) =>
      if m.isChild config.codexHome config.thread then some (str "child thread")
      else match m.threadRow config.codexHome config.thread with
        | none => some (str "missing thread")
        | some row =>
          if row.archived then some (str "archived thread")
          else match row.rolloutPath with
            | some (d::ds) =>
              if m.resolve (c::cs) = m.resolve (d::ds) then none
              else some (str "transcript_path mismatch")
            | _ => some (str "transcript_path mismatch")
    | _ => some (str "missing transcript_path")

end PeerChat
