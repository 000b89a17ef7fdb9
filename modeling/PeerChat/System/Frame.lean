import PeerChat.Inbox.KeySteps

/-! Which meta keys an access may write, and that it leaves the others alone. -/
namespace PeerChat
open Python Interleaving

/-- The meta keys. -/
inductive MetaKey
  | config
  | stop
  | runtime
  | phase
  | delivery
  | remaining
  | wakeRemaining
  | budgetLimit
  | budgetOwnerTurn
  | hookSeen
  | hookRejected
  | wakePending
  | lastWake
  | wakeCounts
  | peerNotices
  | lifecycleReconciled
  | replyTo
  deriving DecidableEq

/-- The key has the same value in both. -/
def MetaKey.Same (k k' : Meta) : MetaKey → Prop
  | .config => k'.config = k.config
  | .stop => k'.stop = k.stop
  | .runtime => k'.runtime = k.runtime
  | .phase => k'.phase = k.phase
  | .delivery => k'.delivery = k.delivery
  | .remaining => k'.remaining = k.remaining
  | .wakeRemaining => k'.wakeRemaining = k.wakeRemaining
  | .budgetLimit => k'.budgetLimit = k.budgetLimit
  | .budgetOwnerTurn => k'.budgetOwnerTurn = k.budgetOwnerTurn
  | .hookSeen => k'.hookSeen = k.hookSeen
  | .hookRejected => k'.hookRejected = k.hookRejected
  | .wakePending => k'.wakePending = k.wakePending
  | .lastWake => k'.lastWake = k.lastWake
  | .wakeCounts => k'.wakeCounts = k.wakeCounts
  | .peerNotices => k'.peerNotices = k.peerNotices
  | .lifecycleReconciled => k'.lifecycleReconciled = k.lifecycleReconciled
  | .replyTo => k'.replyTo = k.replyTo

lemma MetaKey.same_refl (k : Meta) (key : MetaKey) : key.Same k k := by cases key <;> rfl

def BudgetKey.metaKey : BudgetKey → MetaKey
  | .remaining => .remaining
  | .wakeRemaining => .wakeRemaining
  | .budgetLimit => .budgetLimit

/-- The keys of the allowance windows. -/
def windowKeys : List MetaKey := [.remaining,.wakeRemaining,.budgetLimit]

/-- The keys of the wake records. -/
def wakeKeys : List MetaKey := [.wakePending,.lastWake,.wakeCounts]

/-- The keys that an operation may write. -/
def KeyOp.writes : KeyOp → List MetaKey
  | .putHookSeen _ => [.hookSeen]
  | .putHookRejected _ => [.hookRejected]
  | .renew _ => [.remaining,.wakeRemaining,.budgetOwnerTurn]
  | .putPhase _ | .seedPhase _ => [.phase]
  | .activeHook _ | .recordWake _ => wakeKeys
  | .takeNotices | .putNotices _ => [.peerNotices]
  | .dropWake | .nullWake => [.wakePending]
  | .putStop _ => [.stop]
  | .putRuntime _ => [.runtime]
  | .putConfig _ | .enroll .. | .setDefaultPeer _ | .setSupervision => [.config]
  | .stopBridge _ => [.config,.stop]
  | .changeOwner _ => [.phase,.hookSeen,.wakePending]
  | .putDelivery _ => [.delivery]
  | .putBudget key _ => [key.metaKey]
  | .configureDelivery _ none => [.delivery]
  | .configureDelivery _ (some _) => .delivery :: windowKeys
  | .seedLifecycle .. => [.hookSeen,.phase]
  | .reconcile _ => [.phase,.lifecycleReconciled]
  | .putReplyTo .. => [.replyTo]

def Op.writes : Op → List MetaKey
  | .key op => op.writes
  | .inbox (.offer ..) | .inbox (.claimForwarding ..) => [.remaining]
  | .inbox (.claimWake _) => [.wakePending,.wakeRemaining]
  | .inbox .readAck | .inbox (.readAckFrom _) | .inbox (.ackById ..) => [.wakePending]
  | _ => []

lemma same_of_wakeFrame {k k' : Meta} (h : Wake.Frame k k') {key : MetaKey}
    (hk : key ∉ wakeKeys) : key.Same k k' := by
  rw [h]
  cases key <;> first | rfl | simp [wakeKeys] at hk

theorem KeyOp.frame (m : Machine) (k : Meta) (op : KeyOp) {key : MetaKey} (h : key ∉ op.writes) :
    key.Same k (op.apply m k) := by
  cases op with
  | activeHook payload => exact same_of_wakeFrame (Wake.activeHook_frame m.now payload k) h
  | recordWake marker => exact same_of_wakeFrame (Wake.recordWake_frame m.now marker k) h
  | renew turn =>
    simp only [KeyOp.apply,PeerChat.renew]
    split
    · cases key <;> first | rfl | simp [KeyOp.writes] at h
    · exact key.same_refl k
  | setSupervision =>
    simp only [KeyOp.apply,PeerChat.setSupervision]
    split_ifs
    · exact key.same_refl k
    · cases key <;> first | rfl | simp [KeyOp.writes] at h
  | seedLifecycle ownerIdentity saved =>
    simp only [KeyOp.apply,PeerChat.seedLifecycle]
    split_ifs
    · exact key.same_refl k
    · cases key <;> first | rfl | simp [KeyOp.writes] at h
    · cases key <;> first | rfl | simp [KeyOp.writes] at h
  | reconcile finding =>
    simp only [KeyOp.apply,PeerChat.reconcile]
    split_ifs
    · exact key.same_refl k
    · cases key <;> first | rfl | simp [KeyOp.writes] at h
  | putBudget b value =>
    cases b <;> cases key <;>
      first | rfl | simp [KeyOp.writes,BudgetKey.metaKey] at h
  | configureDelivery mode budget =>
    cases budget <;> cases key <;> first | rfl | simp [KeyOp.writes,windowKeys] at h
  | _ => cases key <;> first | rfl | simp [KeyOp.writes] at h

/-- An access leaves every key alone that it does not write. -/
theorem apply_frame (op : Op) (w : World) {key : MetaKey} (h : key ∉ op.writes) :
    key.Same w.store.keys (apply op w).store.keys := by
  cases op with
  | key op => exact KeyOp.frame w.machine w.store.keys op h
  | sending op =>
    rw [apply_sending_keys]
    exact key.same_refl _
  | inbox op =>
    change key.Same w.store.keys (op.apply w.machine w.store).keys
    rcases InboxOp.keys_cases w.machine w.store op with hk | ⟨hack,hk⟩ | ⟨config,row,rfl,-,hk⟩ | ⟨ha,hk⟩
    · rw [hk]
      exact key.same_refl _
    · have hne : key ≠ .wakePending := by
        rintro rfl
        cases op <;> first | exact h (List.mem_singleton.mpr rfl) | cases hack
      rw [hk]
      cases key <;> first | rfl | exact absurd rfl hne
    · rw [hk]
      cases key <;> first | rfl | simp [Op.writes] at h
    · have hne : key ≠ .remaining := by
        rintro rfl
        cases op <;> first | exact h (List.mem_singleton.mpr rfl) | cases ha
      rw [hk]
      cases key <;> first | rfl | exact absurd rfl hne
  | _ => exact key.same_refl _

end PeerChat
