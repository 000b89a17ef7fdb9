import Mathlib.Data.List.Lex
import Mathlib.Data.List.Sort
import Mathlib.Order.Fin.Basic
import PeerChat.Interleaving.Program
import PeerChat.Machine
import PeerChat.Python.JsonAscii
import PeerChat.Python.Sha256
import PeerChat.Setup.MergeHooks

/-! `setup` after the installation: the bridge's hooks are reviewed as the app-server reports them, the
owner agrees to the digest of a review, and their trust is written. -/
namespace PeerChat.Setup
open Python Interleaving

/-- A hook as `hooks/list` reports it; none where the field is missing. -/
structure HookInfo where
  key : Option Str := none
  eventName : Option Str := none
  command : Option Str := none
  currentHash : Option Str := none
  trustStatus : Option Str := none
  statusMessage : Option Str := none
  sourcePath : Option Str := none
  handlerType : Option Str := none
  matcher : Option Str := none
  timeoutSec : Option ℕ := none
  enabled : Option Bool := none
  isManaged : Option Bool := none
  async : Option Bool := none

/-- What the review keeps of a hook. -/
structure Reviewed where
  key : Str
  eventName : Str
  command : Str
  currentHash : Str
  trustStatus : Str
  deriving DecidableEq

def expectedEvents : List Str :=
  [str "sessionStart",str "postToolUse",str "userPromptSubmit",str "stop"]

/-- The hook is installed by the bridge's setup into this file. -/
def HookInfo.ours (resolve : Str → Str) (target : Str) (hook : HookInfo) : Bool :=
  hook.statusMessage = some MARKER && resolve (hook.sourcePath.getD []) = target

def HookInfo.differs (command : Str) (hook : HookInfo) : Bool :=
  hook.command ≠ some command || ! (hook.eventName.any expectedEvents.contains) ||
    hook.isManaged = some true || hook.enabled ≠ some true ||
    hook.handlerType ≠ some (str "command") || hook.timeoutSec ≠ some 3 ||
    hook.async = some true || hook.matcher.isSome

/-- The body of the loop over the reported hooks. -/
def HookInfo.review (command : Str) (hook : HookInfo) : Except Exc Reviewed :=
  if hook.differs command then
    .error (valueError "Bridge hook differs from the setup definition; review refused")
  else if ! startswith (hook.currentHash.getD []) (str "sha256:") || hook.key.getD [] = [] then
    .error (valueError "This Codex version does not expose exact hook identities and hashes")
  else match hook.trustStatus with
    | none => .error (keyError "trustStatus")
    | some trust => .ok
        { key := hook.key.getD []
          eventName := hook.eventName.getD []
          command := command
          currentHash := hook.currentHash.getD []
          trustStatus := trust }

/-- `review_hooks` on what `client.hooks()` has returned. -/
def reviewHooks (resolve : Str → Str) (codexHome command : Str) (hooks : List HookInfo) :
    Except Exc (List Reviewed) := do
  let target := resolve (codexHome ++ str "/hooks.json")
  let own ← (hooks.filter (·.ours resolve target)).mapM (·.review command)
  if own.length ≠ EVENTS.length || ! expectedEvents.all fun e => own.any (·.eventName = e) then
    .error (valueError "Codex did not discover all four bridge hooks")
  else
    .ok (own.insertionSort fun h h' => h.key ≤ h'.key)

/-! The digest. -/

/-- The items without the trust, in the order of their keys. -/
def Reviewed.definition (h : Reviewed) : Json :=
  .obj [(str "command",.str h.command),(str "currentHash",.str h.currentHash),
    (str "eventName",.str h.eventName),(str "key",.str h.key)]

def definitions (hooks : List Reviewed) : Json := .arr (hooks.map Reviewed.definition)

/-- The bytes that are hashed. -/
def definitionBytes (hooks : List Reviewed) : Bytes :=
  (Utf8.encode (Json.dumpsAscii (definitions hooks))).getD []

def reviewDigest (hooks : List Reviewed) : Str := Sha256.hexdigest (definitionBytes hooks)

/-! The requests. -/

structure Edit where
  keyPath : Str
  value : Str
  mergeStrategy : Str
  deriving DecidableEq

def Reviewed.edit (h : Reviewed) : Edit where
  keyPath := str "hooks.state." ++ Json.dumpsAscii (.str h.key) ++ str ".trusted_hash"
  value := h.currentHash
  mergeStrategy := str "replace"

def edits (hooks : List Reviewed) : List Edit :=
  (hooks.filter (·.trustStatus ≠ str "trusted")).map Reviewed.edit

structure BatchWrite where
  edits : List Edit
  filePath : Str
  reloadUserConfig : Bool
  expectedVersion : Option Str
  deriving DecidableEq

/-- A layer of the configuration as `config/read` reports it. -/
structure Layer where
  type : Option Str
  file : Option Str
  version : Option Str

/-- What a run of `setup` finds. -/
structure Desk where
  /-- `Path(p).resolve()`. -/
  resolve : Str → Str
  /-- The app-server's answers to the next `hooks/list`, `config/read` and `config/batchWrite`. -/
  hooks : Except Exc (List HookInfo)
  layers : Except Exc (List Layer)
  answer : Except Exc Unit
  /-- What the owner answers next. -/
  input : Except Exc Str
  /-- `config.toml` and its backup, where they exist. -/
  config : Option Str
  backup : Option Str
  /-- How the next `atomic_write` ends. -/
  atomicWrite : Except Exc Unit

inductive SetupOp
  | hooksList
  | configRead
  | files
  | backup (text : Str)
  | batchWrite (request : BatchWrite)
  /-- The definitions are printed for the owner. -/
  | details (hooks : List Reviewed)
  | input
  /-- Whatever the app-server, the owner and other processes do. -/
  | outside (desk : Desk)

def SetupOp.apply : SetupOp → Desk → Desk
  | .backup text, s => if s.atomicWrite.isOk then { s with backup := some text } else s
  | .outside desk, _ => desk
  | _, s => s

instance : Acts SetupOp Desk := ⟨SetupOp.apply⟩

abbrev SetupCode := Prog Desk SetupOp

def Desk.reviewed (s : Desk) (codexHome command : Str) : Except Exc (List Reviewed) :=
  s.hooks.bind (reviewHooks s.resolve codexHome command)

/-- `review_hooks(client, codex_home, command)`. -/
def review (codexHome command : Str) : SetupCode (Except Exc (List Reviewed)) := do
  let s ← Prog.perform .hooksList
  return s.reviewed codexHome command

/-- The versions of the user's own layers. -/
def userVersions (resolve : Str → Str) (codexHome : Str) : List Layer → Except Exc (List Str)
  | [] => .ok []
  | layer::layers =>
    if layer.type = some (str "user") then
      match layer.file with
      | none => .error (keyError "file")
      | some file =>
        if resolve file = resolve (codexHome ++ str "/config.toml") then
          match layer.version with
          | none => .error (keyError "version")
          | some version => (userVersions resolve codexHome layers).map (version :: ·)
        else userVersions resolve codexHome layers
    else userVersions resolve codexHome layers

/-- The first copy of `config.toml` is kept. -/
def backUp : SetupCode (Except Exc Unit) := do
  let s ← Prog.perform .files
  if s.config.isNone then return .ok ()
  else
    let s ← Prog.perform .files
    if s.backup.isSome then return .ok ()
    else
      let s ← Prog.perform .files
      match s.config with
      | none => return .error ⟨.os,str "FileNotFoundError",[]⟩
      | some text =>
        let s ← Prog.perform (.backup text)
        return s.atomicWrite

/-- The body of `if edits`. -/
def writeTrust (codexHome : Str) (hooks : List Reviewed) : SetupCode (Except Exc Unit) := do
  let s ← Prog.perform .configRead
  match s.layers.bind (userVersions s.resolve codexHome) with
  | .error exc => return .error exc
  | .ok versions =>
    match ← backUp with
    | .error exc => return .error exc
    | .ok () =>
      let s ← Prog.perform (.batchWrite
        ⟨edits hooks,codexHome ++ str "/config.toml",true,versions.head?⟩)
      return s.answer

def enableReviewed (codexHome command approvedDigest : Str) :
    SetupCode (Except Exc (List Reviewed)) := do
  match ← review codexHome command with
  | .error exc => return .error exc
  | .ok hooks =>
    if reviewDigest hooks ≠ approvedDigest then
      return .error (valueError "Hook definitions changed since review; consent does not match")
    else
      match ← (if edits hooks = [] then .ret (.ok ()) else writeTrust codexHome hooks) with
      | .error exc => return .error exc
      | .ok () =>
        match ← review codexHome command with
        | .error exc => return .error exc
        | .ok verified =>
          if verified.any (·.trustStatus ≠ str "trusted") then
            return .error (valueError "Codex did not confirm hook trust; setup is incomplete")
          else return .ok verified

/-! The run. -/

structure SetupArgs where
  review : Bool
  approveDigest : Option Str
  /-- `sys.stdin.isatty()`. -/
  tty : Bool

/-- The digest that the command line approves, if it is not empty. -/
def SetupArgs.approved (args : SetupArgs) : Option Str := args.approveDigest.filter (· ≠ [])

inductive SetupResult
  /-- Everything is trusted already. -/
  | ready
  | manifest (digest : Str) (hooks : List Reviewed)
  | declined
  | enabled (hooks : List Reviewed)

def choice (text : Str) : Str := lower (strip text)

def affirmative (text : Str) : Bool := choice text = str "y" || choice text = str "yes"

/-- The question to the owner. -/
def askOwner (hooks : List Reviewed) : SetupCode (Except Exc Bool) := do
  let s ← Prog.perform .input
  match s.input with
  | .error exc => return .error exc
  | .ok text =>
    if choice text = str "details" then
      let _ ← Prog.perform (.details hooks)
      let s ← Prog.perform .input
      return s.input.map affirmative
    else return .ok (affirmative text)

/-- `main` of `setup`, from the first review on. -/
def setup (args : SetupArgs) (codexHome command : Str) : SetupCode (Except Exc SetupResult) := do
  match ← review codexHome command with
  | .error exc => return .error exc
  | .ok hooks =>
    let digest := reviewDigest hooks
    if hooks.all (·.trustStatus = str "trusted") then return .ok .ready
    else if args.review || (args.approved.isNone && ! args.tty) then
      return .ok (.manifest digest hooks)
    else match args.approved with
      | some approved => return (← enableReviewed codexHome command approved).map .enabled
      | none =>
        match ← askOwner hooks with
        | .error exc => return .error exc
        | .ok false => return .ok .declined
        | .ok true => return (← enableReviewed codexHome command digest).map .enabled

end PeerChat.Setup
