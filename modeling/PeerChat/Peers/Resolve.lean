import PeerChat.Peers.Records

/-! Endpoint resolution: which live process and socket stand behind an enrolled record now. -/
namespace PeerChat
open Python

def checkSocket (m : Machine) (path : Str) (what : String) : Except Exc Str :=
  match m.lstat path with
  | .error _ => .error (valueError (what ++ ": socket path does not exist"))
  | .ok inode =>
    if ¬ inode.isSocket then .error (valueError (what ++ ": path is not a socket"))
    else if ¬ inode.ownedByUser then .error (valueError (what ++ ": socket belongs to another user"))
    else .ok path

/-- Is the identity the live, verified owner of this thread and home? -/
def ownerVerified (m : Machine) (root thread home ownerIdentity : Str) : Bool :=
  let byRegistry := match m.registered root thread with
    | some r => r.thread == some thread && canonicalHome m (r.codexHome.getD []) == home &&
        r.ownerIdentity == some ownerIdentity &&
        (r.ownerPid.bind m.processIdentity) == some ownerIdentity
    | none => false
  byRegistry || m.lockOwner home thread == some ownerIdentity

def resolveClaude (m : Machine) (r : PeerRecord) : Except Exc Endpoint :=
  match r.pid, r.identity, r.socket with
  | some pid, some identity, some socket =>
    if m.processIdentity pid ≠ some identity then
      .error (valueError "claude peer: process is not live or was replaced")
    else do
      let socket ← checkSocket m socket "claude peer"
      .ok ⟨pid,identity,socket⟩
  | _, _, _ => .error (valueError "peer record is incomplete")

def resolveCodex (m : Machine) (thread home root : Str) : Except Exc Endpoint := do
  let c ← m.counterpart root thread
  if c.thread ≠ some thread then
    .error (valueError "codex peer: counterpart bridge serves a different thread")
  else if canonicalHome m (c.codexHome.getD []) ≠ home then
    .error (valueError "codex peer: counterpart bridge uses a different Codex home")
  else match c.runtimePid, c.runtimeIdentity with
    | some pid, some identity =>
      if m.processIdentity pid ≠ some identity then
        .error (valueError "codex peer: counterpart listener is not live")
      else if m.processOwned pid = some false then
        .error (valueError "codex peer: counterpart listener runs as another user")
      else if c.ownerPid.isNone ∨ c.ownerPid.bind m.processIdentity ≠ c.ownerIdentity then
        .error (valueError "codex peer: counterpart owner process is not live or was replaced")
      else match c.socket with
        | some socket =>
          if socket = [] ∨ (c.runtimeSocket ≠ none ∧ c.runtimeSocket ≠ some socket) then
            .error (valueError "codex peer: counterpart socket path is inconsistent")
          else match c.ownerIdentity with
            | some owner =>
              if ownerVerified m root thread home owner then do
                let socket ← checkSocket m socket "codex peer"
                .ok ⟨pid,identity,socket⟩
              else .error (valueError
                "codex peer: counterpart owner is not the live verified owner of that thread")
            | none => .error (valueError
                "codex peer: counterpart owner is not the live verified owner of that thread")
        | none => .error (valueError "codex peer: counterpart socket path is inconsistent")
    | _, _ => .error (valueError "codex peer: counterpart listener is not live")

/-- `resolve_peer(record)`: the live endpoint, or a ValueError with a bounded reason. -/
def resolvePeer (m : Machine) (record : PeerRecord) : Except Exc Endpoint :=
  if record.kind = some .codex ∧ absoluteRoot m record.stateRoot = none then
    .error (valueError "codex peer: state_root must be a non-empty absolute path")
  else match normalise m record with
    | none => .error (valueError "peer record is incomplete")
    | some (_,r) =>
      if r.kind = some .codex then
        match r.thread, r.codexHome, absoluteRoot m r.stateRoot with
        | some thread, some home, some root => resolveCodex m thread home root
        | _, _, _ =>
          .error (valueError "codex peer: state_root must be a non-empty absolute path")
      else resolveClaude m r

/-- `verify_socket(path, pid, identity)`. -/
def verifySocket (m : Machine) (e : Endpoint) : Except Exc Unit :=
  if m.processIdentity e.pid ≠ some e.identity then
    .error (valueError
      "Invited peer process ended or changed; invite its replacement explicitly")
  else do
    let inode ← m.lstat e.socket
    if inode.isSocket ∧ inode.ownedByUser then .ok ()
    else .error (valueError "Unexpected peer socket type or owner")

end PeerChat
