import PeerChat.Hooks.Deliver
import PeerChat.Python.Dict
import PeerChat.System.Op
import PeerChat.Wire.Outbound

/-! `notify`: a listener warns the senders of blocked messages. Each message is marked in a
transaction of its own before the advisory that names it goes out. -/
namespace PeerChat.Notify
open Python Wire Interleaving

/-- What `view` tells of the own bridge. -/
structure Snapshot where
  name : Option Str := none
  runtimeState : Option Str := none
  deliveryState : Option Str := none
  reachable : Bool := false
  remaining : Option Budget := none
  warning : Option Str := none

/-- The value of a `notice_message:` key. -/
structure Mark where
  time : Time
  state : Option Str
  remaining : Option Budget

/-- The value of a `notice:` key. -/
structure NoticeRecord where
  signature : List (Option Str)
  time : Time
  result : Str

/-- What an advisory says. -/
structure AdvisoryData where
  state : Option Str
  remaining : Option Budget
  messageId : Str
  messageIds : List Str
  heldIds : List Str
  warning : Str

inductive AdvisoryBody
  /-- A message to a Claude peer. -/
  | message (text : Str)
  /-- A control frame to a Codex peer, which goes out as an ASCII line. -/
  | frame (value : Json)

/-- An advisory whose sending has begun. -/
structure Advisory where
  key : Str
  data : AdvisoryData
  body : AdvisoryBody

/-- The message is named somewhere in the advisory. -/
def AdvisoryData.names (d : AdvisoryData) (mid : Str) : Bool :=
  mid = d.messageId || d.messageIds.contains mid || d.heldIds.contains mid

structure Post where
  /-- The bridge's database and the machine. -/
  world : World
  snapshot : Snapshot
  /-- The id of the `recovery_event`, if there is one. -/
  recovery : Option (Option Str)
  /-- What `uuid.uuid4()` yields next. -/
  fresh : Str
  notices : List (Str × NoticeRecord)
  /-- By meta key. -/
  marks : List (Str × Mark)
  /-- Every attempt to send an advisory. -/
  attempts : List Advisory

/-- `'notice_message:' + key + ':' + mid`. -/
def markKey (key mid : Str) : Str := str "notice_message:" ++ key ++ str ":" ++ mid

def marked (s : Post) (key mid : Str) : Bool := s.marks.any (·.1 == markKey key mid)

inductive NotifyOp
  | look
  | putNotice (key : Str) (record : NoticeRecord)
  | putMark (key mid : Str) (mark : Mark)
  | advise (advisory : Advisory)
  /-- Whatever else changes: messages, enrollments, states, the machine. -/
  | outside (world : World) (snapshot : Snapshot) (recovery : Option (Option Str)) (fresh : Str)

def NotifyOp.apply : NotifyOp → Post → Post
  | .look, s => s
  | .putNotice key record, s => { s with notices := Python.Dict.set s.notices key record }
  | .putMark key mid mark, s => { s with marks := Python.Dict.set s.marks (markKey key mid) mark }
  | .advise advisory, s => { s with attempts := s.attempts ++ [advisory] }
  | .outside world snapshot recovery fresh, s =>
    { s with world := world, snapshot := snapshot, recovery := recovery, fresh := fresh }

instance : Acts NotifyOp Post := ⟨NotifyOp.apply⟩

abbrev NotifyCode := Prog Post NotifyOp

def look {β : Type} (f : Post → β) : NotifyCode β := .act .look fun s => .ret (f s)

def put (op : NotifyOp) : NotifyCode Unit := .act op fun _ => .ret ()

/-! Texts. -/

def RETAINED : Str :=
  str "Message retained; model delivery is currently blocked. Inspect peer-chat status."

def HELD_WARNING : Str :=
  str "Messages held by the hop/enrollment guard require explicit review; renewing an allowance cannot release them. " ++
  str "Inspect recipient status --message-id ID. Do not automatically resend or reset the reply chain."

def RECOVERED : Str := str "Listener recovered after an unexpected exit. "

def idsJson (ids : List Str) : Json := .arr (ids.map Json.str)

/-- The items of `data`. -/
def AdvisoryData.pairs (d : AdvisoryData) : List (Str × Json) :=
  [(str "state",optionJson d.state),(str "remaining",(d.remaining.map Budget.toJson).getD .null),
    (str "message_id",.str d.messageId),(str "message_ids",idsJson d.messageIds),
    (str "warning",.str d.warning)] ++
    if d.heldIds = [] then [] else [(str "held_message_ids",idsJson d.heldIds)]

/-- `current.get('name') or config['thread'][:8]`. -/
def bridgeName (config : Config) (current : Snapshot) : Str :=
  match current.name with
  | some (c::cs) => c::cs
  | _ => config.thread.take 8

/-- The message to a Claude peer. -/
def advisoryText (config : Config) (current : Snapshot) (d : AdvisoryData) : Str :=
  NOTICE ++ str " — transport metadata, not a task or owner approval. Do not reply.\n" ++
    Json.dumps (.obj ((str "bridge",.str (bridgeName config current)) :: d.pairs))

/-- The control frame to a Codex peer. -/
def controlFrame (config : Config) (d : AdvisoryData) : Json :=
  .obj ([(str "type",.str (str "control")),(str "action",.str (str "peer_chat_notice")),
    (str "from",.str (str "uds:" ++ config.socket))] ++ d.pairs)

def advisoryFor (config : Config) (current : Snapshot) (key : Str) (peer : PeerRecord)
    (d : AdvisoryData) : Advisory where
  key := key
  data := d
  body := if peer.kind = some .claude then .message (advisoryText config current d)
    else .frame (controlFrame config d)

/-- The body of the `try`. A control frame is encoded without fail; only the connection can break. -/
def sendAdvisory (U : Interp) (s : Post) (config : Config) (key : Str) (peer : PeerRecord) :
    AdvisoryBody → Except Exc Unit
  | .message text => do
    let m := s.world.machine
    let routed ← routedPeer m config (some key)
    let (target,_) ← outbound U m config routed text s.fresh [] true
    m.sendall target
  | .frame _ => do
    let m := s.world.machine
    let endpoint ← resolvePeer m peer
    verifySocket m endpoint
    m.connect endpoint
    m.sendall endpoint

/-- `except (OSError, ValueError, sqlite3.Error)`. -/
def catches (exc : Exc) : Bool := exc.kind = .os || exc.kind = .value || exc.kind = .sqlite

/-! The pass. -/

/-- What a pass has found at its beginning. -/
structure Pass where
  config : Config
  current : Snapshot
  recovery : Option (Option Str)
  now : Time

def Pass.signature (p : Pass) : List (Option Str) :=
  [p.current.runtimeState,p.current.deliveryState] ++ p.recovery.toList

/-- `[r for r in pending_rows if not store.get('notice_message:' + key + ':' + r[0])]`. -/
def unwarned (key : Str) : List MessageRow → NotifyCode (List MessageRow)
  | [] => .ret []
  | row::rows => do
    let warned ← look fun s => marked s key row.id
    let rest ← unwarned key rows
    return if warned then rest else row::rest

def markAll (key : Str) (mark : Str → Mark) : List Str → NotifyCode Unit
  | [] => .ret ()
  | mid::mids => do
    put (.putMark key mid (mark mid))
    markAll key mark mids

/-- Startup hooks can race the first message; a message is not yet overdue in that state. `second` is
one second of the clock. -/
def overdue (second : Time) (p : Pass) (row : MessageRow) : Bool :=
  row.status = .held || p.current.deliveryState ≠ some (str "awaiting_lifecycle_hook") ||
    20*second ≤ p.now-row.created

/-- What an advisory about these rows says. -/
def advisoryData (p : Pass) (prior : Option NoticeRecord) (rows : List MessageRow) (first : Str) :
    AdvisoryData :=
  let held := (rows.filter (·.status = .held)).map (·.id)
  let blocked := match p.current.warning with
    | some (c::cs) => c::cs
    | _ => RETAINED
  let warning := if held = [] then blocked else HELD_WARNING
  let news : Bool := match p.recovery with
    | none => false
    | some event => prior.all fun record => event ∉ record.signature
  { state := if held.length = rows.length then some (str "held") else p.current.deliveryState
    remaining := p.current.remaining
    messageId := first
    messageIds := rows.map (·.id)
    heldIds := held
    warning := if news then RECOVERED ++ warning else warning }

/-- The rows of one peer that are named, at most twenty. -/
def advise (U : Interp) (p : Pass) (key : Str) (peer : PeerRecord)
    (prior : Option NoticeRecord) (rows : List MessageRow) : NotifyCode Bool :=
  match rows with
  | [] => .ret true
  | row::_ => do
    let data := advisoryData p prior rows row.id
    put (.putNotice key ⟨p.signature,p.now,str "attempting"⟩)
    markAll key (fun mid => ⟨p.now,
      if data.heldIds.contains mid then some (str "held") else p.current.deliveryState,
      p.current.remaining⟩) data.messageIds
    let advisory := advisoryFor p.config p.current key peer data
    let s ← Prog.perform (.advise advisory)
    match sendAdvisory U s p.config key peer advisory.body with
    | .ok () => do
      put (.putNotice key ⟨p.signature,p.now,str "written"⟩)
      return true
    | .error exc =>
      if catches exc then do
        put (.putNotice key ⟨p.signature,p.now,str "unconfirmed:" ++ exc.name⟩)
        return true
      else return false

/-- The body of the loop over the peers. The result false says that an exception ends the pass. -/
def notifyPeer (U : Interp) (second : Time) (p : Pass) (key : Str) (peer : PeerRecord) :
    NotifyCode Bool := do
  let prior ← look fun s => s.notices.lookup key
  let rows ← look fun s => (s.world.store.select fun r =>
    r.peer = key && (r.status = .received || r.status = .held)).take 1000
  let rows ← unwarned key (rows.filter fun r => r.status = .held || ¬ p.current.reachable)
  advise U p key peer prior ((rows.filter (overdue second p)).take 20)

def notifyPeers (U : Interp) (second : Time) (p : Pass) :
    List (Str × PeerRecord) → NotifyCode Unit
  | [] => .ret ()
  | (key,peer)::rest => do
    let goesOn ← notifyPeer U second p key peer
    if goesOn then notifyPeers U second p rest else .ret ()

/-- `notify(store, config, state_root)` in the process `pid`. -/
def notify (U : Interp) (second : Time) (config : Config) (pid : Pid) : NotifyCode Unit := do
  let runtime ← look fun s => s.world.store.keys.runtime.map (·.pid)
  if runtime ≠ some pid then .ret ()
  else do
    let current ← look (·.snapshot)
    let recovery ← look (·.recovery)
    let now ← look (·.world.machine.now)
    let peers ← look fun s => allPeers s.world.machine config.toPeerTable
    notifyPeers U second ⟨config,current,recovery,now⟩ peers

/-- One pass. -/
structure PassTask where
  config : Config
  pid : Pid

/-- A single listener: pass after pass, each of which may end anywhere. -/
def notifier (U : Interp) (second : Time) : System PassTask Post NotifyOp where
  code task := notify U second task.config task.pid
  exclusive _ := true
  allowed _ _ := true
  outside
    | .outside .. => true
    | _ => false

end PeerChat.Notify
