import PeerChat.Interleaving.Pool
import PeerChat.Python.JsonIndent
import PeerChat.Setup.MergeHooks

/-! The installation of the bridge's hooks and skill. A file is replaced by renaming a temporary file
that has been written before; the temporary file is its writer's own. -/
namespace PeerChat.Setup
open Python Interleaving

/-- The files that are replaced: the hooks of the Codex home, what is kept of the first ones, and the
skill of a home. -/
inductive Place
  | hooks
  | backup
  | skill (home : Str)
  deriving DecidableEq

def Place.path (codexHome : Str) : Place → Str
  | .hooks => codexHome ++ str "/hooks.json"
  | .backup => codexHome ++ str "/hooks.json.peer-chat-backup"
  | .skill home => home ++ str "/skills/peer-chat/SKILL.md"

structure Disk where
  /-- The texts of the files that exist, as `read_text` gives them. -/
  text : Place → Option Str
  /-- The symbolic links among them. -/
  linked : Place → Bool
  /-- Homes whose `skills/peer-chat` is a symbolic link. -/
  skillLinked : Str → Bool
  /-- How many characters a temporary file can take. -/
  room : ℕ

inductive DiskOp
  | look
  /-- A temporary file is made and written, as far as there is room. -/
  | stage (text : Str)
  /-- `os.replace(tmp, path)`, where the temporary file holds this text. -/
  | replace (place : Place) (text : Str)
  | unlinkSkill (home : Str)
  /-- Links and room change. -/
  | outside (linked : Place → Bool) (skillLinked : Str → Bool) (room : ℕ)

def DiskOp.apply : DiskOp → Disk → Disk
  | .replace place text, d => { d with
      text := Function.update d.text place (some text)
      linked := Function.update d.linked place false }
  | .unlinkSkill home, d => { d with skillLinked := Function.update d.skillLinked home false }
  | .outside linked skillLinked room, d =>
    { d with linked := linked, skillLinked := skillLinked, room := room }
  | _, d => d

instance : Acts DiskOp Disk := ⟨DiskOp.apply⟩

abbrev DiskCode := Prog Disk DiskOp

def inspect {β : Type} (f : Disk → β) : DiskCode β := .act .look fun d => .ret (f d)

inductive InstallError
  /-- A `ValueError` with this text. -/
  | value (text : Str)
  /-- What `json.loads` raises. -/
  | json
  /-- What `merge_hooks` raises. -/
  | merge
  | os

/-- The second program with what the first one returns, unless it raises. -/
def andThen {α β : Type} (p : DiskCode (Except InstallError α))
    (q : α → DiskCode (Except InstallError β)) : DiskCode (Except InstallError β) :=
  p >>= fun
    | .error exc => .ret (.error exc)
    | .ok a => q a

/-- What is written for a document. -/
def documentText (document : Json) : Str := Json.dumpsIndent document ++ [Json.chr 10 Json.newline_lt]

/-- The document that is there; nothing is an empty one. -/
def existing : Option Str → Except InstallError Json
  | none => .ok (.obj [])
  | some text => match Json.loadsStr text with
    | some (.obj fields) => .ok (.obj fields)
    | some _ => .error (.value (str "Existing hooks.json must contain an object"))
    | none => .error .json

section
variable (codexHome : Str)

/-- `atomic_write(path, text)`. -/
def atomicWrite (place : Place) (text : Str) : DiskCode (Except InstallError Unit) := do
  let linked ← inspect (·.linked place)
  if linked then
    return .error (.value (str "Refusing to replace symlink: " ++ place.path codexHome))
  else
    let d ← Prog.perform (.stage text)
    if text.length ≤ d.room then
      let _ ← Prog.perform (.replace place text)
      return .ok ()
    else return .error .os

/-- `target.read_text() if target.exists() else None`. -/
def readHooks : DiskCode (Except InstallError (Option Str)) := do
  let present ← inspect fun d => (d.text .hooks).isSome
  if present then
    match ← inspect (·.text .hooks) with
    | none => return .error .os
    | some text => return .ok (some text)
  else return .ok none

/-- The first hooks file that is changed is kept. -/
def keepOriginal : Option Str → DiskCode (Except InstallError Unit)
  | none => .ret (.ok ())
  | some old => do
    let kept ← inspect fun d => (d.text .backup).isSome
    if kept then return .ok () else atomicWrite codexHome .backup old

/-- The part of `install` that changes the hooks file. -/
def installHooks (command : Str) (remove : Bool) (old : Option Str) :
    DiskCode (Except InstallError Unit) :=
  match existing old with
  | .error exc => .ret (.error exc)
  | .ok document =>
    match mergeHooks document command remove with
    | none => .ret (.error .merge)
    | some document =>
      if old = some (documentText document) then .ret (.ok ())
      else andThen (keepOriginal codexHome old) fun _ =>
        atomicWrite codexHome .hooks (documentText document)

def installSkills (skill : Str) : List Str → DiskCode (Except InstallError Unit)
  | [] => .ret (.ok ())
  | home::homes => do
    let linked ← inspect (·.skillLinked home)
    if linked then
      let _ ← Prog.perform (.unlinkSkill home)
    andThen (atomicWrite codexHome (.skill home) skill) fun _ => installSkills skill homes

/-- A run of `setup`: its command, whether it removes, the Claude homes, and the skill's text. -/
structure InstallTask where
  command : Str
  remove : Bool
  claudeHomes : List Str
  skill : Str
  scalar : Scalar command

/-- `install(codex_home, claude_homes, command, remove)`. -/
def install (task : InstallTask) : DiskCode (Except InstallError Unit) :=
  andThen readHooks fun old =>
    andThen (installHooks codexHome task.command task.remove old) fun _ =>
      if task.remove then .ret (.ok ())
      else installSkills codexHome task.skill (codexHome :: task.claudeHomes).eraseDups

/-- Any number of installations and removals at the same time. -/
def installer : System InstallTask Disk DiskOp where
  code task := install codexHome task >>= fun _ => .ret ()
  exclusive _ := false
  allowed _ _ := true
  outside
    | .outside .. => true
    | _ => false

end

end PeerChat.Setup
