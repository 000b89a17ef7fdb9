import PeerChat.Python.Json

/-! The machine around the bridge databases: clock, process table, files, the Codex state
database and sockets. Programs read it; nothing in it is written by them. Every field is an
observation, so a change of the outside world is a change of the record. -/
namespace PeerChat
open Python

/-- Seconds of `time.time()`, kept as exact ticks: the code only compares them. -/
abbrev Time := ℤ

abbrev Pid := ℤ

/-- The classes that the program's `except` clauses tell apart. -/
inductive ExcKind
  | value
  | os
  | sqlite
  | timeout
  | other
  deriving DecidableEq

/-- A raised exception: its class, the name of its type and its text. -/
structure Exc where
  kind : ExcKind
  name : Str
  text : Str
  deriving DecidableEq

def valueError (text : String) : Exc := ⟨.value,str "ValueError",str text⟩
def keyError (key : String) : Exc := ⟨.other,str "KeyError",str key⟩

/-- What `lstat` tells about a path. -/
structure Inode where
  isSocket : Bool
  ownedByUser : Bool
  deriving DecidableEq

/-- The row of a thread in Codex's own state database. -/
structure ThreadRow where
  sandboxPolicy : Str
  approvalMode : Str
  archived : Bool
  model : Option Str := none
  rolloutPath : Option Str := none

/-- A live process behind a socket. -/
structure Endpoint where
  pid : Pid
  identity : Str
  socket : Str
  deriving DecidableEq

/-- What another bridge's database and files say about it. -/
structure Counterpart where
  thread : Option Str
  codexHome : Option Str
  ownerPid : Option Pid
  ownerIdentity : Option Str
  socket : Option Str
  runtimePid : Option Pid
  runtimeIdentity : Option Str
  runtimeSocket : Option Str

/-- A registry file, as far as the verification of an owner reads it. -/
structure Registered where
  thread : Option Str
  codexHome : Option Str
  ownerPid : Option Pid
  ownerIdentity : Option Str

/-- The events of Codex hooks. -/
inductive HookEvent
  | sessionStart
  | userPromptSubmit
  | postToolUse
  | stop
  /-- Any other text. -/
  | other (text : Str)
  deriving DecidableEq

/-- A hook's record of itself in the registry, kept from before an inbox existed. -/
structure SavedHook where
  thread : Str
  ownerPid : Pid
  ownerIdentity : Str
  codexHome : Str
  time : Time
  event : HookEvent
  turn : Option Str
  matched : Bool
  transcript : Option Str

/-- The latest terminal event that ends the readable tail of a rollout file. -/
structure TerminalEvent where
  /-- `turn_aborted`, otherwise `task_complete`. -/
  aborted : Bool
  turn : Option Str
  time : Time

/-- The end of one `codex queue` call. -/
inductive QueueOutcome
  /-- Exit status and output. -/
  | exited (code : ℤ) (stdout : Str)
  /-- Not started or timed out. -/
  | raised (exc : Exc)
  deriving DecidableEq

structure Machine where
  now : Time
  /-- `repr` of a float time, as JSON prints it. -/
  timeRepr : Time → Str
  processIdentity : Pid → Option Str
  /-- Whether the process runs as the current user, none when unknown. -/
  processOwned : Pid → Option Bool
  lstat : Str → Except Exc Inode
  /-- `str(Path(p).expanduser().resolve())`. -/
  resolve : Str → Str
  /-- `Path(p).expanduser().is_absolute()`. -/
  isAbsolute : Str → Bool
  /-- Codex home and thread id. -/
  threadRow : Str → Str → Option ThreadRow
  /-- State root and thread id of another bridge. -/
  counterpart : Str → Str → Except Exc Counterpart
  registered : Str → Str → Option Registered
  /-- Codex home and thread id: the identity holding the writer lock. -/
  lockOwner : Str → Str → Option Str
  /-- Connecting, and checking that the connected process is the expected one. -/
  connect : Endpoint → Except Exc Unit
  /-- The end of writing a whole frame to a connected socket. -/
  sendall : Endpoint → Except Exc Unit
  /-- How the next `codex queue` call will end. -/
  queue : QueueOutcome
  /-- Codex home and thread id: is the thread the child of another? -/
  isChild : Str → Str → Bool
  /-- `CODEX_THREAD_ID` in the environment of a hook. -/
  environThread : Option Str
  /-- The Codex process above a hook. -/
  hookOwner : Option Pid
  savedHook : Str → Option SavedHook
  /-- Codex home and thread id. -/
  latestEnd : Str → Str → Option TerminalEvent
  processExe : Pid → Option Str
  /-- `CODEX_HOME` of a command, resolved. -/
  commandHome : Str
  validateSocketPath : Str → Except Exc Unit

/-- A machine with no process, file or thread on it, whose sockets accept. -/
def Machine.bare : Machine where
  now := 0
  timeRepr := fun _ => str "0.0"
  processIdentity := fun _ => none
  processOwned := fun _ => none
  lstat := fun _ => .error ⟨.os,str "FileNotFoundError",[]⟩
  resolve := id
  isAbsolute := fun p => startswith p (str "/")
  threadRow := fun _ _ => none
  counterpart := fun _ _ => .error (valueError "no such bridge")
  registered := fun _ _ => none
  lockOwner := fun _ _ => none
  connect := fun _ => .ok ()
  sendall := fun _ => .ok ()
  queue := .exited 0 []
  isChild := fun _ _ => false
  environThread := none
  hookOwner := none
  savedHook := fun _ => none
  latestEnd := fun _ _ => none
  processExe := fun _ => none
  commandHome := []
  validateSocketPath := fun _ => .ok ()

end PeerChat
