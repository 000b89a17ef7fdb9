import PeerChat.System.Bridge

/-! What the programs of a bridge can do at all: the accesses that only a listener makes, and the
evidence that hooks and commands record. -/
namespace PeerChat
open Python Wire Interleaving

/-- What a program may do beyond reading and the inbox. -/
structure Rights where
  /-- It holds the lock. -/
  listener : Bool := false
  /-- It handles a receipt. -/
  receipt : Bool := false
  /-- It writes the configuration or the stop flag. -/
  setup : Bool := false
  /-- It looks at the stop flag. -/
  checks : Bool := false
  /-- It is a hook. -/
  hook : Bool := false
  /-- It starts a bridge. -/
  starts : Bool := false

/-- The accesses of a program with these rights. -/
def Made (ρ : Rights) : Op → Prop
  | .sending (.markWriting _) | .sending (.sendFrame ..) | .sending (.finish ..) | .restart
  | .inbox (.claimForwarding ..) | .inbox (.claimWake _) | .key (.recordWake _) => ρ.listener = true
  | .sending (.acceptReceipt ..) => ρ.receipt = true
  | .key (.putStop _) | .key (.putConfig _) | .key (.stopBridge _) | .key (.enroll ..)
  | .key (.setDefaultPeer _) | .key .setSupervision => ρ.setup = true
  | .look .stop => ρ.checks = true
  | .inbox (.setStatus ..) => ρ.listener = true
  | .inbox (.offer ..) | .key (.renew _) | .key (.putPhase _) | .key (.activeHook _)
  | .key .takeNotices => ρ.hook = true
  | .key (.putHookSeen seen) =>
    ρ.hook = true ∧ seen.routing = .matched ∧ seen.event.lifecycle = true
  | .key (.seedLifecycle _ saved) => ρ.starts = true ∧ saved.event.lifecycle = true
  | .key (.changeOwner _) | .key (.putBudget ..) | .key .nullWake | .key (.putDelivery _) =>
    ρ.starts = true
  | _ => True

variable {ρ : Rights}

lemma emit_emits {P : Op → Prop} {op : Op} (h : P op) : (emit op).Emits P := ⟨h,fun _ => trivial⟩

lemma emit_made {op : Op} (h : Made ρ op) : (emit op).Emits (Made ρ) := emit_emits h

/-! The inbox. -/

lemma receipt_made (hr : ρ.receipt = true) (peer mid : Str) (body : Receipt) :
    (accept peer (.receipt mid body)).Emits (Made ρ) := by
  refine ⟨trivial,fun w => ?_⟩
  simp only [Prog.bind]
  split_ifs
  · trivial
  · exact ⟨hr,fun _ => trivial⟩

lemma message_made (peer mid body : Str) (mode : Mode) (hops : List Str) :
    (accept peer (.message mid body mode hops)).Emits (Made ρ) := ⟨trivial,fun _ => trivial⟩

lemma notice_made (peer state warning : Str) (remaining : Option Budget) :
    (accept peer (.notice state warning remaining)).Emits (Made ρ) :=
  ⟨trivial,fun _ => ⟨trivial,fun _ => trivial⟩⟩

/-! The commands that read messages, and the one that sets the delivery mode. -/

/-- The accesses of these commands. -/
def Op.ofCommand : Op → Bool
  | .look .inbox | .look .wakePending | .look .runtime | .inbox .readAck | .inbox (.readAckFrom _)
  | .inbox (.ackById ..) | .key .dropWake | .key (.configureDelivery ..) => true
  | _ => false

lemma readInbox_ofCommand (ack : Bool) : (readInbox ack).Emits fun l => l.ofCommand = true := by
  refine ⟨rfl,fun w => ?_⟩
  cases ack
  · trivial
  · exact ⟨rfl,fun _ => trivial⟩

lemma readFrom_ofCommand (peer : Str) (ack : Bool) :
    (readFrom peer ack).Emits fun l => l.ofCommand = true := by
  refine (readInbox_ofCommand false).bind fun rows => ?_
  cases ack
  · trivial
  · exact ⟨rfl,fun _ => (readInbox_ofCommand false).bind fun _ => trivial⟩

lemma clearConsumedWake_ofCommand : clearConsumedWake.Emits fun l => l.ofCommand = true := by
  refine ⟨rfl,fun w => ?_⟩
  simp only [Prog.bind]
  split
  · trivial
  · refine ⟨rfl,fun w => ?_⟩
    simp only [Prog.bind]
    split_ifs
    · exact emit_emits rfl
    · trivial

lemma readById_ofCommand (selected : Option Str) (mid : Str) (ack : Bool) :
    (readById selected mid ack).Emits fun l => l.ofCommand = true := by
  refine ⟨rfl,fun w => ?_⟩
  simp only [Prog.bind]
  split_ifs
  · split
    · exact clearConsumedWake_ofCommand.bind fun _ => trivial
    · exact ⟨rfl,fun _ => trivial⟩
    · trivial
  · trivial

lemma configure_ofCommand (mode : Delivery) (budget : Option Budget) :
    (configure mode budget).Emits fun l => l.ofCommand = true := by
  refine ⟨rfl,fun w => ?_⟩
  simp only [Prog.bind]
  split_ifs
  · trivial
  · exact ⟨rfl,fun _ => trivial⟩

lemma made_ofCommand {l : Op} (h : l.ofCommand = true) : Made ρ l := by
  unfold Op.ofCommand at h
  split at h
  all_goals trivial

/-! The parts of a hook that the routing check has let through. -/

section
variable {P : Op → Prop}

lemma renewWindow_emits (hrenew : ∀ turn, P (.key (.renew turn))) (payload : HookPayload) :
    (renewWindow payload).Emits P := by
  unfold renewWindow
  split
  · exact emit_emits (hrenew _)
  · trivial

lemma decideWake_emits {payload : HookPayload} (hactive : P (.key (.activeHook payload))) :
    (decideWake payload).Emits P := by
  unfold decideWake
  split_ifs
  · exact emit_emits hactive
  · trivial

lemma handOver_emits {config : Config} (hnotices : P (.key .takeNotices))
    (hoffer : ∀ notice, P (.inbox (.offer config notice))) : (handOver config).Emits P :=
  ⟨hnotices,fun _ => ⟨hoffer _,fun _ => trivial⟩⟩

end

/-- The accesses of a hook. -/
def Op.ofHook : Op → Bool
  | .look .machine | .look .config | .inbox (.offer ..) => true
  | .key (.putHookSeen seen) => seen.routing = .matched && seen.event.lifecycle
  | .key (.putHookRejected _) | .key (.renew _) | .key (.putPhase _) | .key (.activeHook _)
  | .key .takeNotices => true
  | _ => false

lemma deliverRouted_ofHook (config : Config) (payload : HookPayload) :
    (deliverRouted config payload).Emits fun l => l.ofHook = true := by
  have hrenew : (renewWindow payload).Emits fun l => l.ofHook = true :=
    renewWindow_emits (fun _ => rfl) payload
  have hdecide : (decideWake payload).Emits fun l => l.ofHook = true := decideWake_emits rfl
  refine hrenew.bind fun _ => ⟨rfl,fun _ => hdecide.bind fun _ => ?_⟩
  split_ifs
  · trivial
  · exact handOver_emits rfl fun _ => rfl

lemma deliver_ofHook (payload : HookPayload) : (deliver payload).Emits fun l => l.ofHook = true := by
  simp only [deliver]
  split_ifs with h
  · trivial
  · refine ⟨rfl,fun w => ⟨rfl,fun w₁ => ?_⟩⟩
    simp only [Prog.bind]
    split
    · trivial
    · rename_i config _
      refine ⟨rfl,fun w₂ => ?_⟩
      simp only [Prog.bind]
      split
      · refine ⟨?_,fun _ => deliverRouted_ofHook config payload⟩
        have hlife : payload.event.lifecycle = true := not_not.mp (not_or.mp h).1
        simpa [Op.ofHook,seenRecord] using hlife
      · refine ⟨rfl,fun _ => ?_⟩
        simp only [Prog.bind]
        split_ifs
        · exact deliverRouted_ofHook config payload
        · trivial

lemma made_ofHook (hh : ρ.hook = true) {l : Op} (h : l.ofHook = true) : Made ρ l := by
  cases l with
  | look what => cases what <;> trivial
  | inbox op => cases op <;> first | exact hh | cases h
  | key op =>
    cases op with
    | putHookSeen seen =>
      obtain ⟨hrouting,hlife⟩ : seen.routing = .matched ∧ seen.event.lifecycle = true := by
        simpa [Op.ofHook] using h
      exact ⟨hh,hrouting,hlife⟩
    | _ => first | exact hh | trivial
  | _ => cases h

lemma deliver_made (hh : ρ.hook = true) (payload : HookPayload) :
    (deliver payload).Emits (Made ρ) := (deliver_ofHook payload).imp fun _ h => made_ofHook hh h

/-! Commands. -/

lemma send_made (U : Interp) (args : SendArgs) : (send U args).Emits (Made ρ) := by
  have hqueue : ∀ target, (enqueueTo args target).Emits (Made ρ) := by
    intro target
    cases target with
    | none => trivial
    | some target => exact ⟨trivial,fun _ => trivial⟩
  refine ⟨trivial,fun w => ?_⟩
  simp only [Prog.bind]
  split_ifs
  · trivial
  · refine ⟨trivial,fun w₁ => ?_⟩
    simp only [Prog.bind]
    split
    · trivial
    · split
      · refine ⟨trivial,fun w₂ => ⟨trivial,fun w₃ => ?_⟩⟩
        simp only [Prog.bind]
        split
        · rename_i target _
          split_ifs
          · exact ⟨trivial,fun _ => hqueue (some target)⟩
          · trivial
        · trivial
      · exact ⟨trivial,fun w₂ => hqueue _⟩

/-! Starting. -/

section
variable {P : Op → Prop}

lemma seedSavedHook_emits (hconfig : P (.look .config)) (hmachine : P (.look .machine))
    (hseed : ∀ identity saved, saved.event.lifecycle = true →
      P (.key (.seedLifecycle identity saved))) : seedSavedHook.Emits P := by
  refine ⟨hconfig,fun w => ?_⟩
  simp only [Prog.bind]
  split
  · trivial
  · rename_i config _
    refine ⟨hmachine,fun w₁ => ?_⟩
    simp only [Prog.bind]
    split
    · trivial
    · rename_i saved hsaved
      -- only evidence of a lifecycle event passes the checks
      refine emit_emits (hseed _ _ ?_)
      simp only [savedEvidence] at hsaved
      split at hsaved
      · cases hsaved
      · split_ifs at hsaved with hchecks
        cases hsaved
        exact hchecks.2.2.2.2.2.2.2.1

lemma waitGone_emits (hmachine : P (.look .machine)) (runtime : Option Runtime) (k : ℕ) :
    (waitGone runtime k).Emits P := by
  induction k with
  | zero => trivial
  | succ k ih =>
    refine ⟨hmachine,fun w => ?_⟩
    simp only [Prog.bind]
    split_ifs
    · exact ih
    · trivial

lemma writeOwner_emits (hseen : P (.look .hookSeen)) (hchange : ∀ b, P (.key (.changeOwner b)))
    (previous : Option Config) (identity : Str) : (writeOwner previous identity).Emits P := by
  cases previous with
  | none => trivial
  | some c =>
    simp only [writeOwner]
    split_ifs
    · trivial
    · exact ⟨hseen,fun _ => ⟨hchange _,fun _ => trivial⟩⟩

lemma replaceListener_emits (hmachine : P (.look .machine)) (hstop : ∀ b, P (.key (.putStop b)))
    (runtime : Option Runtime) (live : Bool) : (replaceListener runtime live).Emits P := by
  simp only [replaceListener]
  split_ifs
  · trivial
  · refine ⟨hstop _,fun _ => (waitGone_emits hmachine runtime 120).bind fun gone => ?_⟩
    split_ifs
    · exact ⟨hstop _,fun _ => trivial⟩
    · trivial
  · exact ⟨hstop _,fun _ => trivial⟩

lemma writeMode_emits (hput : ∀ mode, P (.key (.putDelivery mode))) (args : StartArgs)
    (previous : Option Config) : (writeMode args previous).Emits P := by
  simp only [writeMode]
  split_ifs
  · exact emit_emits (hput _)
  · trivial

lemma writeWindow_emits (hput : ∀ key budget, P (.key (.putBudget key budget))) (args : StartArgs)
    (previous : Option Config) : (writeWindow args previous).Emits P := by
  simp only [writeWindow]
  split_ifs
  · exact ⟨hput _ _,fun _ => ⟨hput _ _,fun _ => ⟨hput _ _,fun _ => trivial⟩⟩⟩
  · trivial

end

lemma writePeers_made (hs : ρ.setup = true) (requested : Option (Str × PeerRecord))
    (config : Config) : (writePeers requested config).Emits (Made ρ) := by
  refine Prog.Emits.bind ?_ fun config => ?_
  · cases requested with
    | none => exact ⟨trivial,fun _ => ⟨hs,fun _ => trivial⟩⟩
    | some requested => exact ⟨hs,fun _ => trivial⟩
  · split_ifs
    · trivial
    · exact ⟨trivial,fun _ => ⟨hs,fun _ => trivial⟩⟩

lemma writeBridge_made (hs : ρ.setup = true) (ht : ρ.starts = true) (args : StartArgs) (previous : Option Config)
    (requested : Option (Str × PeerRecord)) (config : Config) (runtime : Option Runtime)
    (live : Bool) : (writeBridge args previous requested config runtime live).Emits (Made ρ) :=
  (writeOwner_emits trivial (fun _ => ht) ..).bind fun _ => ⟨hs,fun _ =>
    (writePeers_made hs ..).bind fun _ => (writeMode_emits (fun _ => ht) ..).bind fun _ =>
      (writeWindow_emits (fun _ _ => ht) ..).bind fun _ =>
        (seedSavedHook_emits trivial trivial fun _ _ hseed => ⟨ht,hseed⟩).bind fun _ =>
          replaceListener_emits trivial (fun _ => hs) ..⟩

lemma startChecked_made (hs : ρ.setup = true) (ht : ρ.starts = true) (args : StartArgs)
    (previous : Option Config) :
    (startChecked args previous).Emits (Made ρ) := by
  refine ⟨trivial,fun w => ?_⟩
  simp only [Prog.bind]
  split
  · trivial
  · refine ⟨trivial,fun w₁ => ⟨trivial,fun w₂ => ?_⟩⟩
    simp only [Prog.bind]
    split_ifs
    · trivial
    · split
      · split
        · trivial
        · exact writeBridge_made hs ht ..
      · trivial

lemma startBridge_made (hs : ρ.setup = true) (hc : ρ.checks = true) (ht : ρ.starts = true)
    (args : StartArgs) : (startBridge args).Emits (Made ρ) := by
  refine ⟨trivial,fun w => ?_⟩
  simp only [Prog.bind]
  split_ifs
  · refine ⟨hc,fun w₁ => ?_⟩
    simp only [Prog.bind]
    split_ifs
    · trivial
    · exact startChecked_made hs ht ..
  · exact startChecked_made hs ht ..

lemma restore_made (hs : ρ.setup = true) (hc : ρ.checks = true) (ht : ρ.starts = true)
    (row : Option Registration) (args : StartArgs) :
    (restore row args).Emits (Made ρ) := by
  refine ⟨trivial,fun w => ?_⟩
  simp only [Prog.bind]
  split
  · refine ⟨hc,fun w₁ => ?_⟩
    simp only [Prog.bind]
    split_ifs
    · trivial
    · refine ⟨trivial,fun w₂ => ?_⟩
      simp only [Prog.bind]
      split_ifs
      · trivial
      · refine ⟨trivial,fun w₃ => (waitGone_emits trivial ..).bind fun gone => ?_⟩
        split_ifs
        · refine ⟨trivial,fun w₄ => ?_⟩
          simp only [Prog.bind]
          split_ifs
          · trivial
          · refine ⟨hc,fun w₅ => ?_⟩
            simp only [Prog.bind]
            split_ifs
            · trivial
            · exact ⟨ht,fun _ => startBridge_made hs hc ht _⟩
        · trivial
  · trivial

/-! Starting a bridge, for accesses of any kind that reads and writes of keys are. -/

section
variable {P : Op → Prop} (hlook : ∀ what, P (.look what)) (hkey : ∀ op, P (.key op))

include hlook hkey in
lemma writePeers_emits (requested : Option (Str × PeerRecord)) (config : Config) :
    (writePeers requested config).Emits P := by
  refine Prog.Emits.bind ?_ fun config => ?_
  · cases requested with
    | none => exact ⟨hlook _,fun _ => ⟨hkey _,fun _ => trivial⟩⟩
    | some requested => exact ⟨hkey _,fun _ => trivial⟩
  · split_ifs
    · trivial
    · exact ⟨hlook _,fun _ => ⟨hkey _,fun _ => trivial⟩⟩

include hlook hkey in
lemma startChecked_emits (args : StartArgs) (previous : Option Config) :
    (startChecked args previous).Emits P := by
  refine ⟨hlook _,fun w => ?_⟩
  simp only [Prog.bind]
  split
  · trivial
  · refine ⟨hlook _,fun w₁ => ⟨hlook _,fun w₂ => ?_⟩⟩
    simp only [Prog.bind]
    split_ifs
    · trivial
    · split
      · split
        · trivial
        · exact (writeOwner_emits (hlook _) (fun _ => hkey _) ..).bind fun _ => ⟨hkey _,fun _ =>
            (writePeers_emits hlook hkey ..).bind fun _ =>
              (writeMode_emits (fun _ => hkey _) ..).bind fun _ =>
                (writeWindow_emits (fun _ _ => hkey _) ..).bind fun _ =>
                  (seedSavedHook_emits (hlook _) (hlook _) fun _ _ _ => hkey _).bind fun _ =>
                    replaceListener_emits (hlook _) (fun _ => hkey _) ..⟩
      · trivial

include hlook hkey in
lemma startBridge_emits (args : StartArgs) : (startBridge args).Emits P := by
  refine ⟨hlook _,fun w => ?_⟩
  simp only [Prog.bind]
  split_ifs
  · refine ⟨hlook _,fun w₁ => ?_⟩
    simp only [Prog.bind]
    split_ifs
    · trivial
    · exact startChecked_emits hlook hkey ..
  · exact startChecked_emits hlook hkey ..

include hlook hkey in
lemma restore_emits (row : Option Registration) (args : StartArgs) :
    (restore row args).Emits P := by
  refine ⟨hlook _,fun w => ?_⟩
  simp only [Prog.bind]
  split
  · refine ⟨hlook _,fun w₁ => ?_⟩
    simp only [Prog.bind]
    split_ifs
    · trivial
    · refine ⟨hlook _,fun w₂ => ?_⟩
      simp only [Prog.bind]
      split_ifs
      · trivial
      · refine ⟨hlook _,fun w₃ => (waitGone_emits (hlook _) ..).bind fun gone => ?_⟩
        split_ifs
        · refine ⟨hlook _,fun w₄ => ?_⟩
          simp only [Prog.bind]
          split_ifs
          · trivial
          · refine ⟨hlook _,fun w₅ => ?_⟩
            simp only [Prog.bind]
            split_ifs
            · trivial
            · exact ⟨hkey _,fun _ => startBridge_emits hlook hkey _⟩
        · trivial
  · trivial

end

/-! The listener. -/

/-- What a tick looks at, once it has looked for a message to send. -/
def Look.tick : Look → Bool
  | .outgoing | .stop | .config => false
  | _ => true

section
variable {P : Op → Prop} {id : Str}
  (hfinish : ∀ ending detail, P (.sending (.finish id ending detail)))

include hfinish in
lemma finishSend_emits (r : Except Exc Unit) : (finishSend id r).Emits P := by
  simp only [finishSend]
  split
  · exact ⟨hfinish _ _,fun _ => trivial⟩
  · split_ifs
    · exact ⟨hfinish _ _,fun _ => trivial⟩
    · trivial

lemma replyHops_emits (hlook : ∀ what, what.tick = true → P (.look what)) (peer : Option Str)
    (row : OutgoingRow) : (replyHops peer row).Emits P := by
  refine ⟨hlook _ rfl,fun w => ?_⟩
  simp only [Prog.bind]
  split_ifs
  · exact ⟨hlook _ rfl,fun _ => trivial⟩
  · trivial

/-- What a tick does with the row it has selected. -/
lemma dispatchOutgoing_emits (hlook : ∀ what, what.tick = true → P (.look what)) (U : Interp)
    (config : Config) (row : OutgoingRow) (hmark : P (.sending (.markWriting row.id)))
    (hsend : ∀ data, P (.sending (.sendFrame row.id data)))
    (hfinish : ∀ ending detail, P (.sending (.finish row.id ending detail))) :
    (dispatchOutgoing U config row).Emits P := by
  refine ⟨hmark,fun _ => ⟨hlook _ rfl,fun w => ?_⟩⟩
  simp only [Prog.bind]
  split
  · exact finishSend_emits hfinish _
  · refine (replyHops_emits hlook _ row).bind fun hops => ⟨hlook _ rfl,fun w₁ => ?_⟩
    simp only [Prog.bind]
    split
    · exact finishSend_emits hfinish _
    · exact ⟨hsend _,fun _ => finishSend_emits hfinish _⟩

end

/-! What a tick does where nothing is waiting to be sent. -/

/-- What a tick does to the messages. -/
def InboxOp.tick : InboxOp → Bool
  | .setStatus .. | .claimForwarding .. | .claimWake _ => true
  | _ => false

section
variable {P : Op → Prop} (hlook : ∀ what, what.tick = true → P (.look what))
  (hinbox : ∀ op : InboxOp, op.tick = true → P (.inbox op))
  (hrecord : ∀ marker, P (.key (.recordWake marker)))

include hlook hinbox hrecord in
lemma wakeIdle_emits (config : Config) : (wakeIdle config).Emits P := by
  refine ⟨hinbox _ rfl,fun w => ?_⟩
  simp only [Prog.bind]
  split
  · trivial
  · refine ⟨hrecord _,fun _ => ⟨hlook _ rfl,fun w₁ => ?_⟩⟩
    simp only [Prog.bind]
    split
    · trivial
    · exact ⟨hrecord _,fun _ => trivial⟩

include hlook hinbox in
lemma forward_emits (config : Config) (row : MessageRow) : (forward config row).Emits P := by
  refine ⟨hlook _ rfl,fun w => ?_⟩
  simp only [Prog.bind]
  split_ifs
  · exact ⟨hinbox _ rfl,fun _ => trivial⟩
  · refine ⟨hinbox _ rfl,fun w₁ => ?_⟩
    simp only [Prog.bind]
    split_ifs
    · refine ⟨hlook _ rfl,fun w₂ => ?_⟩
      simp only [Prog.bind]
      split
      · trivial
      · exact ⟨hinbox _ rfl,fun _ => trivial⟩
    · trivial
  · exact ⟨hinbox _ rfl,fun _ => trivial⟩

include hlook hinbox hrecord in
lemma dispatchInbox_emits (config : Config) : (dispatchInbox config).Emits P := by
  refine ⟨hlook _ rfl,fun w₁ => ?_⟩
  simp only [Prog.bind]
  split_ifs
  · trivial
  · refine ⟨hlook _ rfl,fun w₂ => ?_⟩
    simp only [Prog.bind]
    split_ifs
    · exact wakeIdle_emits hlook hinbox hrecord config
    · refine ⟨hlook _ rfl,fun w₃ => ?_⟩
      simp only [Prog.bind]
      split_ifs
      · trivial
      · refine ⟨hlook _ rfl,fun w₄ => ?_⟩
        simp only [Prog.bind]
        split_ifs
        · refine ⟨hlook _ rfl,fun w₅ => ?_⟩
          simp only [Prog.bind]
          split
          · trivial
          · exact forward_emits hlook hinbox config _
        · trivial

end

lemma made_look (what : Look) (hw : what.tick = true) : Made ρ (.look what) := by
  cases what <;> trivial

lemma made_inbox (hl : ρ.listener = true) (op : InboxOp) (ho : op.tick = true) :
    Made ρ (.inbox op) := by
  cases op with
  | setStatus peer id outcome detail => exact hl
  | claimForwarding peer id => exact hl
  | claimWake config => exact hl
  | _ => cases ho

lemma dispatch_made (hl : ρ.listener = true) (U : Interp) (config : Config) : (dispatch U config).Emits (Made ρ) := by
  refine ⟨trivial,fun w => ?_⟩
  simp only [Prog.bind]
  split
  · exact dispatchOutgoing_emits made_look U config _ hl (fun _ => hl) fun _ _ => hl
  · exact dispatchInbox_emits made_look (made_inbox hl) (fun _ => hl) config

/-! What the supervised part of a pass does. -/

section
variable {P : Op → Prop} (hlook : ∀ what, what ≠ .config → P (.look what))
  (hreconcile : ∀ finding, P (.key (.reconcile finding)))

include hlook hreconcile in
lemma reconcileTurn_emits (config : Config) : (reconcileTurn config).Emits P := by
  refine ⟨hlook _ (by rintro ⟨⟩),fun w => ?_⟩
  simp only [Prog.bind]
  split
  · trivial
  · split_ifs
    · trivial
    · refine ⟨hlook _ (by rintro ⟨⟩),fun w₁ => ⟨hlook _ (by rintro ⟨⟩),fun w₂ =>
        ⟨hlook _ (by rintro ⟨⟩),fun w₃ => ?_⟩⟩⟩
      simp only [Prog.bind]
      split
      · trivial
      · split_ifs
        · trivial
        · refine ⟨hlook _ (by rintro ⟨⟩),fun w₄ => ?_⟩
          simp only [Prog.bind]
          split
          · trivial
          · split_ifs
            · trivial
            · exact emit_emits (hreconcile _)

include hlook hreconcile in
lemma supervise_emits (config : Config) (wanted : Bool) : (supervise config wanted).Emits P := by
  simp only [supervise]
  split_ifs
  · refine ⟨hlook _ (by rintro ⟨⟩),fun w => ?_⟩
    simp only [Prog.bind]
    split_ifs
    · refine ⟨hlook _ (by rintro ⟨⟩),fun w₁ => ?_⟩
      simp only [Prog.bind]
      split_ifs
      · exact reconcileTurn_emits hlook hreconcile config
      · trivial
    · trivial
  · trivial

end

lemma supervise_made (hc : ρ.checks = true) (config : Config) (wanted : Bool) :
    (supervise config wanted).Emits (Made ρ) := by
  refine supervise_emits (fun what _ => ?_) (fun _ => trivial) config wanted
  cases what with
  | stop => exact hc
  | _ => trivial

lemma workerPass_made (hl : ρ.listener = true) (hc : ρ.checks = true) (U : Interp)
    (due : Bool) : (workerPass U due).Emits (Made ρ) := by
  refine ⟨trivial,fun w => ?_⟩
  simp only [Prog.bind]
  split
  · trivial
  · refine ⟨trivial,fun w₁ => (supervise_made hc ..).bind fun _ => ?_⟩
    split_ifs
    · exact dispatch_made hl ..
    · trivial

lemma worker_made (hl : ρ.listener = true) (hc : ρ.checks = true) (U : Interp)
    (passes : List Bool) : (worker U passes).Emits (Made ρ) := by
  induction passes with
  | nil => trivial
  | cons due rest ih =>
    refine (workerPass_made hl hc U due).bind fun goesOn => ?_
    split_ifs
    · exact ih
    · trivial

lemma serve_made (hl : ρ.listener = true) (hs : ρ.setup = true) (hc : ρ.checks = true)
    (U : Interp) (pid : Pid) (passes : List Bool) :
    (serve U pid passes).Emits (Made ρ) := by
  refine ⟨trivial,fun w => ⟨hc,fun w₁ => ?_⟩⟩
  simp only [Prog.bind]
  split_ifs
  · trivial
  · split
    · trivial
    · refine Prog.Emits.bind ?_ fun _ => (worker_made hl hc U passes).bind fun _ => emit_made trivial
      exact ⟨hl,fun _ => ⟨hs,fun _ => ⟨trivial,fun _ => emit_made trivial⟩⟩⟩

/-- What a process may do. -/
def Process.rights : Process → Rights
  | .serve .. => { listener := true, setup := true, checks := true }
  | .accept _ (.receipt ..) => { receipt := true }
  | .deliver _ => { hook := true }
  | .start _ | .restore .. => { setup := true, checks := true, starts := true }
  | .stop | .enableSupervision | .connectOwn _ => { setup := true }
  | _ => {}

theorem Process.code_made (U : Interp) (p : Process) : (p.code U).Emits (Made p.rights) := by
  cases p with
  | accept peer frame =>
    cases frame with
    | receipt mid body => exact (receipt_made rfl ..).bind fun _ => trivial
    | message mid body mode hops => exact (message_made ..).bind fun _ => trivial
    | notice state warning remaining => exact (notice_made ..).bind fun _ => trivial
  | read ack => exact ((readInbox_ofCommand ack).imp fun _ => made_ofCommand).bind fun _ => trivial
  | readFrom peer ack => exact ((readFrom_ofCommand peer ack).imp fun _ => made_ofCommand).bind fun _ => trivial
  | readById selected mid ack =>
    exact ((readById_ofCommand selected mid ack).imp fun _ => made_ofCommand).bind fun _ => trivial
  | deliver payload => exact (deliver_made rfl ..).bind fun _ => trivial
  | serve pid passes => exact serve_made rfl rfl rfl ..
  | start args => exact (startBridge_made rfl rfl rfl ..).bind fun _ => trivial
  | restore row args => exact (restore_made rfl rfl rfl ..).bind fun _ => trivial
  | stop => exact ⟨trivial,fun _ => emit_made rfl⟩
  | enableSupervision => exact emit_made rfl
  | send args => exact (send_made ..).bind fun _ => trivial
  | configure mode budget => exact ((configure_ofCommand mode budget).imp fun _ => made_ofCommand).bind fun _ => trivial
  | connectSeed phase => exact emit_made trivial
  | connectOwn key => exact ⟨trivial,fun _ => emit_made rfl⟩

/-- Every access of a schedule from a pool without processes is one that some process may make,
or a change outside. -/
theorem trace_made (U : Interp) (honest : Bool) (w : World) (es : Schedule) :
    ∀ t ∈ (bridge U honest).trace (.idle w) es, (∃ ρ, Made ρ t.label) ∨
      t.label.isOutside = true := by
  intro t ht
  let P : Bool → Op → Prop := fun _ l => ∃ ρ, Made ρ l
  have hcode : ∀ p : Process, (p.code U).Emits (P p.exclusive) :=
    fun p => (p.code_made U).imp fun _ h => ⟨_,h⟩
  have hS : (bridge U honest).Sound _ _ _ := System.Sound.emits hcode
  rcases ((hS.trace_fair es (Pool.idle_safe trivial)).2 t ht).2 with ⟨_,h⟩ | h
  · exact Or.inl h
  · exact Or.inr h

end PeerChat
