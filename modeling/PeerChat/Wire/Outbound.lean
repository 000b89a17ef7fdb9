import PeerChat.Peers.Resolve
import PeerChat.Wire.Frame

/-! The sender's side: the permission class of the own thread, and everything `outbound` does
before and at the socket write. -/
namespace PeerChat.Wire
open Python

/-- `permission_class(codex_home, thread_id)`. -/
def permissionClass (m : Machine) (codexHome thread : Str) : Except Exc Mode :=
  let cannot := valueError "Cannot determine existing Codex thread permissions"
  match m.threadRow codexHome thread with
  | none => .error cannot
  | some row =>
    if row.archived then .error cannot
    else match Json.loadsStr row.sandboxPolicy with
      | some policy =>
        match policy.get (str "type") with
        | none => .error cannot
        | some kind =>
          let open' := [str "disabled",str "danger-full-access"]
          let closed := [str "read-only",str "workspace-write"]
          let asks := [str "on-request",str "on-failure",str "untrusted"]
          let named (names : List Str) : Bool := match kind.str? with
            | some k => names.contains k
            | none => false
          if named open' ∧ row.approvalMode = str "never" then .ok .bypass
          else if named (open' ++ closed) ∧ asks.contains row.approvalMode then .ok .prompting
          else .error (valueError "Unknown Codex permission mode; sending refused")
      | none => .error cannot

/-- `[A-Za-z0-9_.-]` -/
def inModel (c : CodePoint) : Bool :=
  (65 ≤ c.val && c.val ≤ 90) || (97 ≤ c.val && c.val ≤ 122) || (48 ≤ c.val && c.val ≤ 57) ||
  c == ofChar '_' || c == ofChar '.' || c == ofChar '-'

/-- `re.sub(r"[^A-Za-z0-9_.-]", "_", model)[:48]` -/
def modelSuffix (model : Str) : Str :=
  (model.map fun c => if inModel c then c else ofChar '_').take 48

def senderName (m : Machine) (config : Config) (advisory : Bool) : Str :=
  if advisory then str "peer-chat-bridge"
  else match (m.threadRow config.codexHome config.thread).bind (·.model) with
    | some (c::cs) => str "Codex-" ++ modelSuffix (c::cs)
    | _ => str "Codex"

/-- The first maximal run of surrogates: where it begins and how long it is. -/
def surrogateRun (s : Str) : ℕ × ℕ :=
  ((s.takeWhile (!isSurrogate ·)).length,
    ((s.dropWhile (!isSurrogate ·)).takeWhile isSurrogate).length)

/-- The error of `s.encode()` for a text with surrogates. -/
def unicodeEncodeError (s : Str) : Exc :=
  let (start,count) := surrogateRun s
  let shown := match s.drop start with
    | c::_ => str "'\\u" ++ [c.val/4096,c.val/256%16,c.val/16%16,c.val%16].map Json.hexDigit ++
        str "'"
    | [] => []
  let place := if count = 1 then str "character " ++ shown ++ str " in position " ++
      Json.dumpsNat start
    else str "characters in position " ++ Json.dumpsNat start ++ str "-" ++
      Json.dumpsNat (start+count-1)
  ⟨.value,str "UnicodeEncodeError",
    str "'utf-8' codec can't encode " ++ place ++ str ": surrogates not allowed"⟩

def encodeText (s : Str) : Except Exc Bytes :=
  match Utf8.encode s with
  | some bytes => .ok bytes
  | none => .error (unicodeEncodeError s)

/-- `hashlib.sha256(("codex:" + thread).encode()).hexdigest()[:24]` -/
def ownHop (thread : Str) : Except Exc Str := do
  let bytes ← encodeText (str "codex:" ++ thread)
  .ok ((Sha256.hexdigest bytes).take 24)

/-- The hop chain after the sender has added its own hop. -/
def extendHops (kind : Option PeerKind) (own : Str) (hops : List Str) : List Str :=
  if kind = some .codex ∨ own ∉ hops then hops ++ [own] else hops

/-- The attributes of the opening tag, in the order in which they are written. -/
def tagPairs (address : Str) (hops : List Str) (name : Str) (mode : Mode) : List (Str × Str) :=
  (str "from",address) ::
    ((if hops = [] then [] else [(str "hop-chain",join (ofChar ',') hops)]) ++
      [(str "from-name",name),(str "from-mode",mode.text)])

/-- The frame dictionary. -/
def frameJson (mid content address : Str) : Json :=
  .obj [(str "msgV",.int 1),(str "msg_id",.str mid),(str "type",.str (str "user")),
    (str "message",.obj [(str "role",.str (str "user")),(str "content",.str content)]),
    (str "from",.str address),(str "priority",.str (str "next"))]

/-- Every interpreter reads such a frame. -/
lemma reads_frameJson (U : Interp) (mid content address : Str) :
    U.reads (frameJson mid content address) = true := by
  have hdepth := U.enough_depth
  have hone : (1 : ℤ).natAbs < 10^U.maxDigits := Interp.lt_maxDigits (by decide)
  simp only [Interp.reads,frameJson,Json.depth,Json.depthPairs,Json.withinDigits,
    Json.withinDigitsPairs,hone,decide_true,Bool.and_true,decide_eq_true_eq]
  omega

/-- `resolve_peer(peer)` for a Codex peer, otherwise the record's own fields. -/
def endpointOf (m : Machine) (peer : PeerRecord) : Except Exc Endpoint :=
  if peer.kind = some .codex then resolvePeer m peer
  else match peer.socket, peer.pid, peer.identity with
    | some socket, some pid, some identity => .ok ⟨pid,identity,socket⟩
    | none, _, _ => .error (keyError "'socket'")
    | some _, none, _ => .error (keyError "'pid'")
    | some _, some _, none => .error (keyError "'identity'")

/-- The permission class that the frame states. Only an advisory may go out without one. -/
def statedMode (m : Machine) (config : Config) (advisory : Bool) : Except Exc Mode :=
  match permissionClass m config.codexHome config.thread with
  | .ok mode => .ok mode
  | .error exc => if advisory then .ok .prompting else .error exc

/-- `outbound` up to the socket write: whom it has connected to, and the bytes that it hands
to `sendall`. -/
def outbound (U : Interp) (m : Machine) (config : Config) (peer : PeerRecord)
    (body mid : Str) (hops : List Str) (advisory : Bool) : Except Exc (Endpoint × Bytes) := do
  let endpoint ← endpointOf m peer
  verifySocket m endpoint
  if strip body = [] ∨ nestedMarker U body then
    throw (valueError "Empty message or reserved envelope marker in body")
  if advisory ∧ ¬ startswith body NOTICE then
    throw (valueError "Service advisory must be transport metadata")
  let mode ← statedMode m config advisory
  let own ← ownHop config.thread
  let hops := extendHops peer.kind own hops
  if 32 < hops.length then throw (valueError "Outgoing native hop chain exceeds limit")
  let address := str "uds:" ++ config.socket
  let attrs := attributes (tagPairs address hops (senderName m config advisory) mode)
  let content := envelope attrs (rstrip body)
  let data ← encodeText (Json.dumps (frameJson mid content address) ++ [ofChar '\n'])
  if MAX_LINE < data.length-1 then throw (valueError "Outgoing frame exceeds size limit")
  m.connect endpoint
  .ok (endpoint,data)

end PeerChat.Wire
