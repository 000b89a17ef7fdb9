import PeerChat.Budget.Allowance
import PeerChat.Python.JsonLimits
import PeerChat.Python.Sha256
import PeerChat.Python.Uuid
import PeerChat.Wire.Envelope

/-! Received lines: the line buffer of a connection and the decoder of one frame. -/
namespace PeerChat.Wire
open Python

def MAX_LINE : ℕ := 65536

/-- The permission class of a sending session. -/
inductive Mode
  | bypass
  | prompting
  deriving DecidableEq

def Mode.text : Mode → Str
  | .bypass => str "bypass"
  | .prompting => str "prompting"

def Mode.ofText (s : Str) : Option Mode :=
  if s = str "bypass" then some .bypass
  else if s = str "prompting" then some .prompting
  else none

inductive Receipt
  | held
  | delivered
  | refused
  | denied
  | expired
  | dropped
  deriving DecidableEq

def Receipt.text : Receipt → Str
  | .held => str "held"
  | .delivered => str "delivered"
  | .refused => str "refused"
  | .denied => str "denied"
  | .expired => str "expired"
  | .dropped => str "dropped"

def Receipt.all : List Receipt := [.held,.delivered,.refused,.denied,.expired,.dropped]

def Receipt.ofText (s : Str) : Option Receipt := Receipt.all.find? fun r => r.text == s

/-- What `decode_frame` returns. -/
inductive Frame
  | notice (state warning : Str) (remaining : Option Budget)
  | receipt (id : Str) (body : Receipt)
  | message (id body : Str) (mode : Mode) (hops : List Str)
  deriving DecidableEq

/-! The line buffer. -/

/-- One `feed`: the complete non-empty lines and the rest, or none when a part is too long. -/
def feed (buffer data : Bytes) : Option (List Bytes × Bytes) :=
  let lines := (buffer ++ data).splitOn 10
  if lines.any (MAX_LINE < ·.length) then none
  else some (lines.dropLast.filter (· ≠ []),lines.getLast?.getD [])

/-- The lines of a sequence of reads. -/
def feedAll : Bytes → List Bytes → Option (List Bytes × Bytes)
  | buffer, [] => some ([],buffer)
  | buffer, chunk::chunks => do
    let (lines,buffer) ← feed buffer chunk
    let (more,buffer) ← feedAll buffer chunks
    some (lines ++ more,buffer)

/-! The decoder. -/

/-- The optional counter of a notice, or none when it is of another type. -/
def counterAt (frame : Json) : Option (Option Budget) :=
  match frame.get (str "remaining") with
  | none => some none
  | some .null => some none
  | some (.int n) => some (some (.count n))
  | some (.str s) => if s = str "unlimited" then some (some .unlimited) else none
  | some _ => none

def decodeNotice (frame : Json) : Option Frame := do
  let state ← strAt "state" frame
  let warning ← strAt "warning" frame
  let remaining ← counterAt frame
  if state.length ≤ 80 ∧ warning.length ≤ 1000 then some (.notice state warning remaining) else none

def decodeReceipt (frame : Json) : Option Frame := do
  let mid ← strAt "orig_msg_id" frame
  let body ← (strAt "status" frame).bind Receipt.ofText
  if validId mid then some (.receipt mid body) else none

/-- `re.fullmatch(r"[0-9a-f]{24}", h)` -/
def isHop (h : Str) : Bool := h.length == 24 && h.all Sha256.isHex

/-- `props.get("hop-chain", "").split(",") if props.get("hop-chain") else []` -/
def splitHops (chain : Option Str) : List Str :=
  match chain with
  | some (c::cs) => split (ofChar ',') (c::cs)
  | _ => []

def NOTICE : Str := str "PEER CHAT DELIVERY NOTICE"

/-- The envelope of a message, after its shape has been matched. -/
def decodeMessage (U : Interp) (expected mid : Str) (attrs body : Str) : Option Frame := do
  let pairs ← readAttributes attrs
  let mode ← (pairs.lookup (str "from-mode")).bind Mode.ofText
  let hops := splitHops (pairs.lookup (str "hop-chain"))
  if pairs.lookup (str "from") = some expected ∧ strip body ≠ [] ∧ ¬ nestedMarker U body ∧
      ¬ startswith body NOTICE ∧ hops.length ≤ 32 ∧ hops.all isHop then
    some (.message mid body mode hops)
  else none

/-- `decode_frame(raw, expected_from)`. -/
def decodeFrame (U : Interp) (raw : Bytes) (expected : Str) : Option Frame :=
  if MAX_LINE < raw.length then none else do
  let frame ← U.loads raw
  if strAt "from" frame ≠ some expected then none
  else if strAt "type" frame = some (str "control") ∧
      strAt "action" frame = some (str "peer_chat_notice") then decodeNotice frame
  else if strAt "type" frame = some (str "control") ∧
      strAt "action" frame = some (str "peer_message_status") then decodeReceipt frame
  else if strAt "type" frame ≠ some (str "user") then none
  else do
    let mid ← strAt "msg_id" frame
    let message ← frame.get (str "message")
    let content ← strAt "content" message
    let (attrs,body) ← matchEnvelope content
    if validId mid ∧ strAt "role" message = some (str "user") then
      decodeMessage U expected mid attrs body
    else none

end PeerChat.Wire
