import PeerChat.Machine
import PeerChat.Python.JsonOrder
import PeerChat.Python.Loops
import PeerChat.Python.Uuid
import PeerChat.Relational.FirstWins

/-! The discovery of live sessions from registration files, bridge databases and writer locks. The values
in a registration file or a bridge's configuration are those of any JSON document, as far as the program
does not check them. -/
namespace PeerChat.Registry
open Python Relational

def typeError : Exc := ⟨.other,str "TypeError",[]⟩
def recursionError : Exc := ⟨.other,str "RecursionError",[]⟩

/-- What becomes of `json.loads(path.read_text())`. -/
inductive FileText
  | unreadable
  | tooDeep
  | value (v : Json)

/-- The loaded value, none for an exception that the callers catch. -/
def FileText.load : FileText → Except Exc (Option Json)
  | .unreadable => .ok none
  | .tooDeep => .error recursionError
  | .value v => .ok (some v)

structure RegistryFile where
  /-- The name without `.json`. -/
  stem : Str
  symlink : Bool := false
  regular : Bool := true
  owned : Bool := true
  text : FileText

/-- What `_bridge_info` reads from the database of a bridge. -/
structure BridgeInfo where
  ownerPid : Json := .null
  ownerIdentity : Json := .null
  codexHome : Json := .null
  delivery : Json := .null
  runtimeAlive : Bool := false

/-- An entry of the state directory. -/
structure StateEntry where
  name : Str
  isDir : Bool

/-- The one process that holds an exclusive lock. -/
structure Holder where
  pid : Pid
  exe : Str
  cwd : Option Str

/-- A file of `thread-writer-locks`. -/
structure LockFile where
  /-- The name without `.lock`. -/
  thread : Str
  symlink : Bool := false
  regular : Bool := true
  holder : Option Holder

/-- `_thread_metadata(codex_home, thread)`; the columns of that table are text. -/
structure ThreadMeta where
  cwd : Option Str := none
  model : Option Str := none
  permissionClass : Str := str "unknown"
  isChild : Bool := false
  found : Bool := false

/-- The files and processes that a discovery reads. A directory is listed in the order of its names, or
in any order where the program does not sort. -/
structure Disk where
  registry : List RegistryFile
  registry_nodup : (registry.map (·.stem)).Nodup
  globbed : List RegistryFile
  globbed_perm : globbed.Perm registry
  entries : List StateEntry
  entries_nodup : (entries.map (·.name)).Nodup
  listed : List StateEntry
  listed_perm : listed.Perm entries
  bridge : Str → Except Exc (Option BridgeInfo)
  /-- A database lies in the directory of its thread. -/
  bridge_entry : ∀ thread, bridge thread ≠ .ok none →
    ∃ entry ∈ entries, entry.name = thread ∧ entry.isDir = true
  /-- The lock files of a Codex home. -/
  locks : Str → List LockFile
  threadMeta : Str → Str → Except Exc ThreadMeta
  defaultHome : Str
  boot : Str
  /-- The start time of a live process. -/
  startTime : Pid → Option Str
  /-- How a float is read. -/
  float : Str → FloatValue

variable (D : Disk)

def Disk.identity (pid : Pid) : Option Str :=
  if 0 < pid then
    (D.startTime pid).map fun t => D.boot ++ str ":" ++ Json.dumpsInt pid ++ str ":" ++ t
  else none

/-- `process_identity(pid)`. -/
def Disk.processIdentity : Json → Option Str
  | .int pid => D.identity pid
  | _ => none

/-- `isinstance(value, int)`. -/
def isInt : Json → Bool
  | .int _ | .bool _ => true
  | _ => false

/-! Names. -/

def nameChar (c : CodePoint) : Bool :=
  (48 ≤ c.val && c.val ≤ 57) || (65 ≤ c.val && c.val ≤ 90) || (97 ≤ c.val && c.val ≤ 122) ||
    (str "._-").contains c

/-- `NAME_RE.sub("-", text)`; `inside` tells that the last character belonged to a match. -/
def subNames (inside : Bool) : Str → Str
  | [] => []
  | c::s =>
    if nameChar c then c :: subNames false s
    else if inside then subNames true s else ofChar '-' :: subNames true s

/-- `sanitise_name(value, fallback)`. -/
def sanitiseName (value fallback : Str) : Str :=
  let text := stripChars (str "-._") (subNames false value)
  (if text = [] then fallback else text).take 64

/-- The parts of a path. -/
def pathParts (p : Str) : List Str :=
  (split (ofChar '/') p).filter fun part => part ≠ [] ∧ part ≠ str "."

/-- `Path(p).name`. -/
def pathName (p : Str) : Str := ((pathParts p).getLast?).getD []

/-- `str(Path(p))`. -/
def pathText (p : Str) : Str :=
  let root := if startswith p (str "//") ∧ ¬ startswith p (str "///") then str "//"
    else if startswith p (str "/") then str "/" else []
  let text := root ++ join (ofChar '/') (pathParts p)
  if text = [] then str "." else text

/-- `str(Path(value))` of a value that may be no text. -/
def pathOf : Json → Except Exc Str
  | .str p => .ok (pathText p)
  | _ => .error typeError

/-- `default_name(cwd, thread)`. -/
def defaultName (cwd : Option Str) (thread : Str) : Str :=
  let base := if truthy cwd then pathName (cwd.getD []) else []
  sanitiseName (if base = [] then thread.take 8 else base ++ str "-" ++ thread.take 8) (thread.take 8)

/-- `_stored_name(state_root, thread, codex_home)`. -/
def storedName (thread : Str) (codexHome : Json) : Except Exc (Option Str) :=
  match D.registry.find? (·.stem = thread) with
  | none => .ok none
  | some file =>
    if file.symlink ∨ ¬ file.regular then .ok none
    else do
      match ← file.text.load with
      | none => .ok none
      | some data =>
        if strAt "thread" data ≠ some thread then .ok none
        else do
          let home ← pathOf codexHome
          if strAt "codex_home" data = some home ∧ truthy (strAt "name" data) then
            .ok (strAt "name" data)
          else .ok none

/-! Rows. -/

/-- A row of the listing. -/
structure Session where
  thread : Str
  name : Json
  cwd : Json
  ownerPid : Json
  ownerIdentity : Json
  exe : Json
  codexHome : Json
  permissionClass : Json
  model : Json
  phase : Json
  source : Json
  initializationRequired : Json
  updatedAt : Json
  bridge : Option BridgeInfo

/-- A registration that `_read_record` accepts. -/
structure SessionRecord where
  thread : Str
  ownerPid : Json
  ownerIdentity : Str
  data : Json

/-- The checks of `_read_record` on the loaded value. -/
def recordOf (stem : Str) (data : Json) : Option SessionRecord :=
  match strAt "thread" data, data.get (str "owner_pid"), strAt "owner_identity" data with
  | some thread, some pid, some identity =>
    if (data.get (str "version")).any (Json.eq D.float · (.int 1)) ∧
        strAt "kind" data = some (str "codex") ∧ validId thread ∧ stem = thread ∧ isInt pid then
      some ⟨thread,pid,identity,data⟩
    else none
  | _, _, _ => none

/-- `_read_record(path)`. -/
def readRecord (file : RegistryFile) : Except Exc (Option SessionRecord) :=
  if file.symlink ∨ ¬ file.regular ∨ ¬ file.owned then .ok none
  else do
    let data ← file.text.load
    .ok (data.bind (recordOf D file.stem))

/-- `_alive(record)`. -/
def SessionRecord.alive (record : SessionRecord) : Bool :=
  D.processIdentity record.ownerPid = some record.ownerIdentity

/-- `record.get(key)`. -/
def SessionRecord.field (record : SessionRecord) (key : String) : Json :=
  (record.data.get (str key)).getD .null

def SessionRecord.row (record : SessionRecord) (bridge : Option BridgeInfo) : Session where
  thread := record.thread
  name := record.field "name"
  cwd := record.field "cwd"
  ownerPid := record.ownerPid
  ownerIdentity := .str record.ownerIdentity
  exe := record.field "exe"
  codexHome := record.field "codex_home"
  permissionClass := record.field "permission_class"
  model := record.field "model"
  phase := record.field "phase"
  source := record.field "source"
  initializationRequired := (record.data.get (str "initialization_required")).getD (.bool false)
  updatedAt := record.field "updated_at"
  bridge := bridge

/-- The row of one registration file, if its owner is live. -/
def registeredRow (file : RegistryFile) : Except Exc (Option Session) := do
  match ← readRecord D file with
  | none => .ok none
  | some record =>
    if ¬ record.alive D then .ok none
    else do
      let bridge ← D.bridge record.thread
      .ok (some (record.row bridge))

/-- The row of one lock file in `discover_locked_threads`. -/
def lockRow (home : Str) (file : LockFile) : Except Exc (Option Session) :=
  if ¬ validId file.thread ∨ file.symlink ∨ ¬ file.regular then .ok none
  else match file.holder with
    | none => .ok none
    | some holder =>
      match D.identity holder.pid with
      | none => .ok none
      | some identity => do
        let data ← D.threadMeta home file.thread
        if data.isChild then .ok none
        else do
          let cwd := holder.cwd.orElse fun _ => data.cwd
          let stored ← storedName D file.thread (.str home)
          let bridge ← D.bridge file.thread
          .ok (some {
            thread := file.thread
            name := .str (stored.getD (defaultName cwd file.thread))
            cwd := optionJson cwd
            ownerPid := .int holder.pid
            ownerIdentity := .str identity
            exe := .str holder.exe
            codexHome := .str home
            permissionClass := .str data.permissionClass
            model := optionJson data.model
            phase := .str (str "unknown")
            source := .str (str "writer-lock")
            initializationRequired := .bool (!data.found)
            updatedAt := .null
            bridge := bridge })

/-- `discover_locked_threads(codex_home, state_root)`. -/
def discoverLockedThreads (home : Str) : Except Exc (List Session) :=
  collect (lockRow D home) (D.locks home)

/-- A home that is a text and not empty. -/
def namedHome : Json → Option Str
  | .str home => if home = [] then none else some (pathText home)
  | _ => none

def fileHome (file : RegistryFile) : Except Exc (Option Str) :=
  if file.symlink then .ok none
  else do
    let data ← file.text.load
    .ok ((data.bind (·.get (str "codex_home"))).bind namedHome)

def entryHome (entry : StateEntry) : Except Exc (Option Str) :=
  if ¬ entry.isDir ∨ ¬ validId entry.name then .ok none
  else do
    let bridge ← D.bridge entry.name
    .ok (bridge.bind fun bridge => namedHome bridge.codexHome)

/-- `_known_homes(state_root)`. -/
def knownHomes : Except Exc (List Str) := do
  let files ← collect fileHome D.globbed
  let bridges ← collect (entryHome D) D.listed
  .ok (files ++ bridges)

/-- The homes that are scanned, in their order. -/
def scannedHomes (codexHomes known : List Str) : List Str :=
  (D.defaultHome :: codexHomes.map pathText ++ known).eraseDups

/-- `lock_rows`: the first row of a thread stays. -/
def lockRows (codexHomes : List Str) (discover : Bool) : Except Exc (List Session) := do
  let known ← knownHomes D
  if discover then
    let rows ← collectAll (discoverLockedThreads D) (scannedHomes D codexHomes known)
    .ok (addAll (·.thread) [] rows)
  else .ok []

/-- The row of a bridge whose configuration alone says who owns it. -/
def bridgeRow (thread : Str) (bridge : BridgeInfo) : Except Exc Session := do
  let home := if Json.truthy D.float bridge.codexHome then bridge.codexHome else .str []
  let stored ← storedName D thread home
  .ok {
    thread := thread
    name := .str (stored.getD (defaultName none thread))
    cwd := .null
    ownerPid := bridge.ownerPid
    ownerIdentity := bridge.ownerIdentity
    exe := .null
    codexHome := bridge.codexHome
    permissionClass := .str (str "unknown")
    model := .null
    phase := .str (str "unknown")
    source := .str (str "bridge-config")
    initializationRequired := .bool false
    updatedAt := .null
    bridge := some bridge }

/-- One pass of the loop over the state directory. -/
def addBridge (locked rows : List Session) (entry : StateEntry) : Except Exc (List Session) :=
  if rows.any (·.thread = entry.name) ∨ ¬ validId entry.name ∨ ¬ entry.isDir then .ok rows
  else do
    match ← D.bridge entry.name with
    | none => .ok rows
    | some bridge =>
      if ¬ isInt bridge.ownerPid then .ok rows
      else if ¬ Json.eq D.float (optionJson (D.processIdentity bridge.ownerPid))
          bridge.ownerIdentity then .ok rows
      else match locked.find? (·.thread = entry.name) with
        | some row =>
          if Json.eq D.float row.ownerIdentity bridge.ownerIdentity then
            .ok (rows ++ [{ row with bridge := some bridge }])
          else do
            let row ← bridgeRow D entry.name bridge
            .ok (rows ++ [row])
        | none => do
          let row ← bridgeRow D entry.name bridge
          .ok (rows ++ [row])

/-- The rows in the order in which they are found. -/
def foundRows (codexHomes : List Str) (discover : Bool) : Except Exc (List Session) := do
  let locked ← lockRows D codexHomes discover
  let registered ← collect (registeredRow D) D.registry
  let rows ← D.entries.foldlM (addBridge D locked) registered
  .ok (addAll (·.thread) rows locked)

/-- `r.get("updated_at") or 0` -/
def sortKey (updatedAt : Json) : Json :=
  if Json.truthy D.float updatedAt then updatedAt else .int 0

/-- `sessions(state_root, codex_homes=…, discover=…)`. -/
def sessions (S : Sorter) (codexHomes : List Str) (discover : Bool) : Except Exc (List Session) := do
  let rows ← foundRows D codexHomes discover
  match S.sortDown D.float (fun row => sortKey D row.updatedAt) rows with
  | some rows => .ok rows
  | none => .error typeError

end PeerChat.Registry
