import PeerChat.Bridge.Config
import PeerChat.Dispatch.Transactions
import PeerChat.Interleaving.Pool

/-! The atomic accesses to one bridge: every statement of the source that commits on its own,
every transaction, the socket write of an outgoing row, and changes of the outside world. A
statement on a locked database fails without effect, which ends its process; that is a crash. -/
namespace PeerChat
open Python Wire Interleaving

/-- What a read looks at: a meta key, a table, or the machine. -/
inductive Look
  | config
  | stop
  | runtime
  | phase
  | delivery
  | remaining
  | hookSeen
  | wakePending
  | peerNotices
  | replyTo
  | inbox
  | receipts
  | outgoing
  | machine
  deriving DecidableEq

/-- Transactions on the message table. -/
inductive InboxOp
  | accept (peer id body : Str) (mode : Mode) (hops : List Str)
  | readAck
  | readAckFrom (peer : Str)
  | ackById (peer id : Str)
  | setStatus (peer id : Str) (outcome : Store.Outcome) (detail : Str)
  | offer (config : Config) (notice : Str)
  | claimForwarding (peer id : Str)
  | claimWake (config : Config)

/-- Transactions on the outgoing table, and the socket write. -/
inductive SendOp
  | enqueue (id body peer : Str)
  | markWriting (id : Str)
  | sendFrame (id : Str) (data : Bytes)
  | finish (id : Str) (ending : Store.SendEnd) (detail : Str)
  | acceptReceipt (peer id : Str) (body : Receipt)

/-- Transactions on the meta table. -/
inductive KeyOp
  | putHookSeen (seen : HookSeen)
  | putHookRejected (seen : HookSeen)
  | renew (turn : Str)
  | putPhase (phase : Phase)
  | activeHook (payload : HookPayload)
  | takeNotices
  | putNotices (notices : List (Str × Notice))
  /-- The deletion of `wake_pending` by an acknowledgement outside a transaction. -/
  | dropWake
  /-- `put("wake_pending", None)`. -/
  | nullWake
  | recordWake (marker : Wake.Marker)
  | putStop (flag : Bool)
  | putRuntime (runtime : Option Runtime)
  | putConfig (config : Config)
  | enroll (key : Str) (record : PeerRecord)
  | stopBridge (read : Option Config)
  | changeOwner (forgetHook : Bool)
  | setDefaultPeer (key : Str)
  | setSupervision
  | putDelivery (mode : Delivery)
  | putBudget (key : BudgetKey) (value : Budget)
  | configureDelivery (mode : Delivery) (budget : Option Budget)
  | seedPhase (phase : Phase)
  | seedLifecycle (ownerIdentity : Str) (saved : SavedHook)
  | reconcile (finding : Finding)
  | putReplyTo (id target : Str)

inductive Op
  /-- A read; it changes nothing. -/
  | look (what : Look)
  | inbox (op : InboxOp)
  | sending (op : SendOp)
  | key (op : KeyOp)
  /-- The startup updates of a listener. -/
  | restart
  /-- The world outside the bridge moves on. -/
  | outside (machine : Machine)

def InboxOp.apply (m : Machine) (s : Store) : InboxOp → Store
  | .accept peer id body mode hops => s.acceptMessage m.now peer id body mode hops
  | .readAck => s.readAck
  | .readAckFrom peer => s.readAckFrom peer
  | .ackById peer id => s.ackById peer id
  | .setStatus peer id outcome detail => s.setStatus peer id outcome detail
  | .offer config notice => PeerChat.offer m config notice s
  | .claimForwarding peer id => s.claimForwarding peer id
  | .claimWake config => Wake.claim m config s

def SendOp.apply (w : World) : SendOp → World
  | .enqueue id body peer => { w with store := w.store.enqueue w.machine.now id body peer }
  | .markWriting id => { w with store := w.store.markWriting id }
  | .sendFrame id data => { w with wire := w.wire ++ [(id,data)] }
  | .finish id ending detail => { w with store := w.store.finishOutgoing id ending detail }
  | .acceptReceipt peer id body =>
    { w with store := w.store.acceptReceipt w.machine.now peer id body }

def KeyOp.apply (m : Machine) (k : Meta) : KeyOp → Meta
  | .putHookSeen seen => { k with hookSeen := some seen }
  | .putHookRejected seen => { k with hookRejected := some seen }
  | .renew turn => PeerChat.renew turn k
  | .putPhase phase => { k with phase := some phase }
  | .activeHook payload => Wake.activeHook m.now payload k
  | .takeNotices => { k with peerNotices := [] }
  | .putNotices notices => { k with peerNotices := notices }
  | .dropWake | .nullWake => { k with wakePending := none }
  | .recordWake marker => Wake.recordWake m.now marker k
  | .putStop flag => { k with stop := flag }
  | .putRuntime runtime => { k with runtime := runtime }
  | .putConfig config => { k with config := some config }
  | .enroll key record => PeerChat.enroll m key record k
  | .stopBridge read => PeerChat.stopBridge read k
  | .changeOwner forgetHook => PeerChat.changeOwner forgetHook k
  | .setDefaultPeer key => PeerChat.setDefaultPeer key k
  | .setSupervision => PeerChat.setSupervision k
  | .putDelivery mode => { k with delivery := some mode }
  | .putBudget key value => PeerChat.putBudget key value k
  | .configureDelivery mode budget => PeerChat.configureDelivery mode budget k
  | .seedPhase phase => PeerChat.seedPhase phase k
  | .seedLifecycle ownerIdentity saved => PeerChat.seedLifecycle ownerIdentity saved k
  | .reconcile finding => PeerChat.reconcile m finding k
  | .putReplyTo id target => { k with replyTo := k.replyTo ++ [(id,target)] }

def Op.apply : Op → World → World
  | .look _, w => w
  | .inbox op, w => { w with store := op.apply w.machine w.store }
  | .sending op, w => op.apply w
  | .key op, w => { w with store := w.store.setKeys (op.apply w.machine) }
  | .restart, w => { w with store := w.store.restart }
  | .outside machine, w => { w with machine := machine }

instance : Acts Op World := ⟨Op.apply⟩

abbrev Code := Prog World Op

/-- One read, and what it yields. -/
def read {β : Type} (what : Look) (f : World → β) : Code β := .act (.look what) fun w => .ret (f w)

/-- One access whose outcome is not needed. -/
def emit (op : Op) : Code Unit := .act op fun _ => .ret ()

@[simp] theorem read_bind {β γ : Type} (what : Look) (f : World → β) (g : β → Code γ) :
    (read what f >>= g) = .act (.look what) fun w => g (f w) := rfl

@[simp] theorem emit_bind {γ : Type} (op : Op) (g : Unit → Code γ) :
    (emit op >>= g) = .act op fun _ => g () := rfl

/-! Which parts of the world an access leaves alone. -/

@[simp] theorem apply_look (what : Look) (w : World) : apply (Op.look what) w = w := rfl

@[simp] theorem apply_outside (m : Machine) (w : World) :
    (apply (Op.outside m) w).store = w.store := rfl

@[simp] theorem apply_outside_wire (m : Machine) (w : World) :
    (apply (Op.outside m) w).wire = w.wire := rfl

@[simp] theorem apply_key_messages (op : KeyOp) (w : World) :
    (apply (Op.key op) w).store.messages = w.store.messages := rfl

@[simp] theorem apply_key_outgoing (op : KeyOp) (w : World) :
    (apply (Op.key op) w).store.outgoing = w.store.outgoing := rfl

@[simp] theorem apply_key_wire (op : KeyOp) (w : World) :
    (apply (Op.key op) w).wire = w.wire := rfl

@[simp] theorem apply_key_keys (op : KeyOp) (w : World) :
    (apply (Op.key op) w).store.keys = op.apply w.machine w.store.keys := rfl

@[simp] theorem apply_inbox_wire (op : InboxOp) (w : World) :
    (apply (Op.inbox op) w).wire = w.wire := rfl

@[simp] theorem apply_sending_messages (op : SendOp) (w : World) :
    (apply (Op.sending op) w).store.messages = w.store.messages := by
  cases op <;> rfl

@[simp] theorem apply_sending_keys (op : SendOp) (w : World) :
    (apply (Op.sending op) w).store.keys = w.store.keys := by
  cases op <;> rfl

@[simp] theorem apply_restart_keys (w : World) :
    (apply Op.restart w).store.keys = w.store.keys := rfl

@[simp] theorem apply_restart_wire (w : World) : (apply Op.restart w).wire = w.wire := rfl

end PeerChat
