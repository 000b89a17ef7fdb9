import PeerChat.Dispatch.SentSteps
import PeerChat.Wire.RoundTrip

/-! Receipts among the steps of a listener. The dispatcher updates its row by id alone, so a
receipt is kept exactly where none arrives between the dispatcher's select and its last update. -/
namespace PeerChat
open Python Relational Wire Interleaving

/-- The row shows the receipt. -/
def Shows (id : Str) (receipt : Option Receipt) (w : World) : Prop :=
  ∀ body, receipt = some body → w.store.sentStatus id = some (.peer body)

/-- The latest receipt accepted for the row, after the step. -/
def latest (id : Str) (receipt : Option Receipt) (t : Step World Op) : Option Receipt :=
  (accepted id t).orElse fun _ => receipt

/-- After every step the row shows the latest accepted receipt. -/
def ReceiptKept (id : Str) : Option Receipt → List (Entry World Op) → Prop
  | _, [] => True
  | receipt, e::t => Shows id (latest id receipt e.step) e.step.post ∧
      ReceiptKept id (latest id receipt e.step) t

/-- The select of a tick. -/
def Op.isSelect : Op → Bool
  | .look .outgoing => true
  | _ => false

/-- The dispatcher's select takes the row. -/
def selects (id : Str) (t : Step World Op) : Bool :=
  t.label.isSelect && t.pre.store.nextPending.any (·.id = id)

/-- Has a receipt been accepted since the dispatcher last selected the row? -/
def overtaken (id : Str) (before : Bool) (e : Entry World Op) : Bool :=
  if e.own && selects id e.step then false else before || (accepted id e.step).isSome

/-- Whenever the dispatcher updates the row, no receipt has been accepted since it selected it. -/
def Undisturbed (id : Str) : Bool → List (Entry World Op) → Prop
  | _, [] => True
  | before, e::t => (e.own = true → e.step.label.updatesSent id = true → before = false) ∧
      Undisturbed id (overtaken id before e) t

instance (id : Str) (receipt : Option Receipt) (w : World) : Decidable (Shows id receipt w) :=
  match receipt with
  | none => isTrue nofun
  | some body => decidable_of_iff (w.store.sentStatus id = some (.peer body))
      ⟨fun h _ hb => Option.some.inj hb ▸ h,fun h => h body rfl⟩

instance decidableReceiptKept (id : Str) : ∀ receipt t, Decidable (ReceiptKept id receipt t)
  | _, [] => isTrue trivial
  | receipt, e::t =>
    have := decidableReceiptKept id (latest id receipt e.step) t
    inferInstanceAs (Decidable (_ ∧ _))

instance decidableUndisturbed (id : Str) : ∀ before t, Decidable (Undisturbed id before t)
  | _, [] => isTrue trivial
  | before, e::t =>
    have := decidableUndisturbed id (overtaken id before e) t
    inferInstanceAs (Decidable (_ ∧ _))

/-- Anything but another dispatcher's update. -/
abbrev NoUpdate (l : Op) : Prop := ∀ id, l.updatesSent id = false

/-! One step. -/

lemma accepted_status {id : Str} {op : Op} {w : World} {body : Receipt}
    (h : accepted id ⟨op,w⟩ = some body) : (apply op w).store.sentStatus id = some (.peer body) := by
  simp only [accepted] at h
  split at h
  · rename_i peer mid body'
    split_ifs at h with hc
    cases h
    change (w.store.acceptReceipt w.machine.now peer mid body).sentStatus id = _
    rw [sentStatus_acceptReceipt,if_pos hc]
  · cases h

/-- A step that accepts no receipt for the row and does not update it keeps a receipt shown. -/
lemma Shows.keep {id : Str} {receipt : Option Receipt} {op : Op} {w : World}
    (h : Shows id receipt w) (hop : op.updatesSent id = false) (hno : accepted id ⟨op,w⟩ = none) :
    Shows id receipt (apply op w) := by
  intro body hbody
  have hw := h body hbody
  have hstep := sent_step op w id
  rw [hw] at hstep
  rcases hstep with he | he
  · exact he
  · split at he
    · exact absurd he.2.1 (by simp)
    · rw [Op.updatesSent,decide_eq_false_iff_not] at hop
      exact absurd he.1 hop
    · rw [Op.updatesSent,decide_eq_false_iff_not] at hop
      exact absurd he.1 hop
    · rename_i peer mid body'
      have hc : ¬ (mid = id ∧
          (w.store.outgoing.find id).any (w.store.addressedTo peer id) = true) := by
        intro hc
        simp [accepted,hc] at hno
      change (w.store.acceptReceipt w.machine.now peer mid body').sentStatus id = _
      rw [sentStatus_acceptReceipt,if_neg hc,hw]
    · exact absurd he.1 (by simp)
    · exact he.elim

lemma Shows.step {id : Str} {receipt : Option Receipt} {op : Op} {w : World}
    (h : Shows id receipt w) (hop : op.updatesSent id = false) :
    Shows id (latest id receipt ⟨op,w⟩) (apply op w) := by
  cases ha : accepted id ⟨op,w⟩ with
  | none =>
    rw [latest,ha]
    exact h.keep hop ha
  | some body =>
    rw [latest,ha]
    rintro body' hbody
    cases hbody
    exact accepted_status ha

/-- An update of the row replaces whatever it shows. -/
lemma update_hides {id : Str} {op : Op} {w : World} (hop : op.updatesSent id = true)
    (body : Receipt) : (apply op w).store.sentStatus id ≠ some (.peer body) := by
  intro h
  have hmap : ∀ st : SentStatus, (∀ b, st ≠ .peer b) →
      (w.store.sentStatus id).map (fun _ => st) ≠ some (.peer body) := by
    intro st hst he
    obtain ⟨-,-,he⟩ := Option.map_eq_some_iff.mp he
    exact hst body he
  simp only [Op.updatesSent] at hop
  split at hop
  · simp only [decide_eq_true_eq] at hop
    subst hop
    refine hmap .writing (by simp) ?_
    rw [← h]
    exact (if_pos rfl).symm.trans (w.store.sentStatus_markWriting _ _).symm
  · rename_i mid ending detail
    simp only [decide_eq_true_eq] at hop
    subst hop
    refine hmap ending.toStatus (by cases ending <;> simp [Store.SendEnd.toStatus]) ?_
    rw [← h]
    exact (w.store.sentStatus_setSent_id ..).symm
  · cases hop

lemma accepted_of_update {id : Str} {op : Op} {w : World} (hop : op.updatesSent id = true) :
    accepted id ⟨op,w⟩ = none := by
  simp only [Op.updatesSent] at hop
  split at hop
  · rfl
  · rfl
  · cases hop

/-! Programs that select a row before they update it. -/

/-- The select decides whether the row is the program's. -/
def claims (id : Str) (mine : Bool) (t : Step World Op) : Bool :=
  if t.label.isSelect then selects id t else mine

/-- The program updates the row only after its last select has taken it. -/
def Selected {α : Type} (id : Str) : Bool → Code α → Prop
  | _, .ret _ => True
  | mine, .act l next => (l.updatesSent id = true → mine = true) ∧
      ∀ w, Selected id (claims id mine ⟨l,w⟩) (next w)

variable {α β : Type} {id : Str}

lemma Selected.of_emits {p : Code α} (h : p.Emits fun l => l.updatesSent id = false)
    (mine : Bool) : Selected id mine p := by
  induction p generalizing mine with
  | ret a => trivial
  | act l next ih =>
    refine ⟨fun hl => ?_,fun w => ih w (h.2 w) _⟩
    rw [h.1] at hl
    cases hl

lemma Selected.weaken {p : Code α} (h : Selected id false p) (mine : Bool) :
    Selected id mine p := by
  induction p generalizing mine with
  | ret a => trivial
  | act l next ih =>
    refine ⟨fun hl => absurd (h.1 hl) (by simp),fun w => ?_⟩
    have hw := h.2 w
    simp only [claims] at hw ⊢
    split_ifs at hw ⊢
    · exact hw
    · exact ih w hw mine

lemma Selected.bind {mine : Bool} {p : Code α} {f : α → Code β} (hp : Selected id mine p)
    (hf : ∀ a, Selected id false (f a)) : Selected id mine (p >>= f) := by
  induction p generalizing mine with
  | ret a => exact (hf a).weaken mine
  | act l next ih => exact ⟨hp.1,fun w => ih w (hp.2 w)⟩

/-- A row that the select takes is pending. -/
lemma selects_pending {op : Op} {w : World} (h : selects id ⟨op,w⟩ = true) :
    w.store.sentStatus id = some .pending := by
  simp only [selects,Bool.and_eq_true] at h
  obtain ⟨r,hr,hid⟩ := (Option.any_eq_true ..).mp h.2
  simp only [decide_eq_true_eq] at hid
  subst hid
  have hmem := List.mem_of_head? hr
  rw [Table.select_mem] at hmem
  rw [Store.sentStatus,Table.find_of_mem hmem.1,Option.map_some]
  exact congrArg some (by simpa using hmem.2)

lemma not_select_of_update {op : Op} (h : op.updatesSent id = true) : op.isSelect = false := by
  cases op with
  | look what => cases h
  | _ => rfl

/-- A read accepts no receipt. -/
lemma accepted_select {op : Op} {w : World} (h : op.isSelect = true) : accepted id ⟨op,w⟩ = none := by
  cases op with
  | look what => rfl
  | _ => cases h

/-- The rule for receipts: in an execution of a program that selects a row before it updates it,
the row always shows its latest receipt exactly if no receipt overtakes an update. -/
theorem receiptKept_iff {p q : Code α} {w w' : World} {t : List (Entry World Op)}
    (h : Exec NoUpdate p w t q w') {mine before : Bool} {receipt : Option Receipt}
    (hp : Selected id mine p) (hmine : mine = true → receipt.isSome = before)
    (hw : Shows id receipt w) : ReceiptKept id receipt t ↔ Undisturbed id before t := by
  induction h generalizing mine before receipt with
  | refl => exact Iff.rfl
  | @foreign p l w t q w' hl rest ih =>
    have hnext := hw.step (hl id)
    have hiff := @ih mine (overtaken id before ⟨false,⟨l,w⟩⟩) _ hp
      (fun hm => by
        have := hmine hm
        simp only [overtaken,latest,Bool.false_and]
        cases accepted id ⟨l,w⟩ <;> simp [this]) hnext
    exact ⟨fun hk => ⟨nofun,hiff.mp hk.2⟩,fun hu => ⟨hnext,hiff.mpr hu.2⟩⟩
  | @own l next w t q w' rest ih =>
    by_cases hup : l.updatesSent id = true
    · have hno := accepted_of_update (w := w) hup
      have hlatest : latest id receipt ⟨l,w⟩ = receipt := by rw [latest,hno]; rfl
      have hm := hmine (hp.1 hup)
      cases receipt with
      | some body =>
        -- the update hides the receipt, which has come since the select
        constructor
        · rintro ⟨hs,-⟩
          rw [hlatest] at hs
          exact absurd (hs body rfl) (update_hides hup body)
        · rintro ⟨hb,-⟩
          rw [hb rfl hup] at hm
          cases hm
      | none =>
        have hsel := not_select_of_update hup
        have hover : overtaken id before ⟨true,⟨l,w⟩⟩ = before := by
          simp [overtaken,selects,hsel,hno]
        have hclaims : claims id mine ⟨l,w⟩ = mine := by simp [claims,hsel]
        have hshows : Shows id none (apply l w) := nofun
        have hiff := @ih mine before none (hclaims ▸ hp.2 w) hmine hshows
        constructor
        · rintro ⟨-,hk⟩
          rw [hlatest] at hk
          refine ⟨fun _ _ => by rw [← hm]; rfl,?_⟩
          rw [hover]
          exact hiff.mp hk
        · rintro ⟨-,hu⟩
          rw [hover] at hu
          refine ⟨by rw [hlatest]; exact hshows,?_⟩
          rw [hlatest]
          exact hiff.mpr hu
    · have hnext := hw.step (show l.updatesSent id = false by simpa using hup)
      have hiff := @ih _ (overtaken id before ⟨true,⟨l,w⟩⟩) (latest id receipt ⟨l,w⟩) (hp.2 w)
        (fun hm => ?_) hnext
      · exact ⟨fun hk => ⟨fun _ hl => absurd hl hup,hiff.mp hk.2⟩,fun hu => ⟨hnext,hiff.mpr hu.2⟩⟩
      · simp only [claims] at hm
        split_ifs at hm with hsel
        · -- the select finds the row pending, so it shows no receipt
          have hnone : receipt = none := by
            cases receipt with
            | none => rfl
            | some body =>
              have := hw body rfl
              rw [selects_pending hm] at this
              cases this
          simp [overtaken,hm,hnone,latest,accepted_select hsel]
        · have := hmine hm
          simp only [overtaken,latest,selects,hsel,Bool.false_and,Bool.and_false]
          cases accepted id ⟨l,w⟩ <;> simp [this]

/-! The listener. -/

lemma Selected.of_mine {p : Code α} (h : p.Emits fun l => l.isSelect = false) :
    Selected id true p := by
  induction p with
  | ret a => trivial
  | act l next ih =>
    refine ⟨fun _ => rfl,fun w => ?_⟩
    simp only [claims,h.1]
    exact ih w (h.2 w)

lemma Selected.of_made {p : Code α} {ρ : Rights} (hl : ρ.listener = false)
    (h : p.Emits (Made ρ)) : Selected id false p := by
  refine .of_emits ?_ false
  refine h.imp fun l hmade => ?_
  have hl' : ¬ ρ.listener = true := by simp [hl]
  cases l with
  | sending op => cases op <;> first | rfl | exact absurd hmade hl'
  | _ => rfl

lemma dispatchOutgoing_selected (U : Interp) (config : Config) (row : OutgoingRow) :
    Selected id (row.id = id) (dispatchOutgoing U config row) := by
  by_cases hid : row.id = id
  · simp only [hid,decide_true]
    exact .of_mine (dispatchOutgoing_emits (fun what hw => by cases what <;> first | rfl | cases hw)
      U config row rfl (fun _ => rfl) fun _ _ => rfl)
  · refine .of_emits ?_ _
    refine dispatchOutgoing_emits (fun _ _ => rfl) U config row ?_ (fun _ => rfl) fun _ _ => ?_
    · exact decide_eq_false hid
    · exact decide_eq_false hid

lemma dispatch_selected (U : Interp) (config : Config) :
    Selected id false (dispatch U config) := by
  refine ⟨by rintro ⟨⟩,fun w => ?_⟩
  simp only [claims,Op.isSelect,if_true,selects,Bool.true_and,Prog.bind]
  split
  · rename_i row hrow
    rw [hrow]
    exact dispatchOutgoing_selected U config row
  · exact .of_emits (dispatchInbox_emits (fun _ _ => rfl) (fun _ _ => rfl) (fun _ => rfl) config) _

lemma worker_selected (U : Interp) (passes : List Bool) :
    Selected id false (worker U passes) := by
  induction passes with
  | nil => trivial
  | cons due rest ih =>
    refine Selected.bind ?_ fun goesOn => ?_
    · refine ⟨by rintro ⟨⟩,fun w => ?_⟩
      simp only [claims,Op.isSelect,Bool.false_eq_true,if_false,Prog.bind]
      split
      · trivial
      · refine ⟨by rintro ⟨⟩,fun w₁ => ?_⟩
        simp only [claims,Op.isSelect,Bool.false_eq_true,if_false,Prog.bind]
        refine Selected.bind (.of_made (ρ := { checks := true }) rfl (supervise_made rfl ..)) fun _ => ?_
        split_ifs
        · exact dispatch_selected U _
        · trivial
    · split_ifs
      · exact ih
      · trivial

lemma serve_selected (U : Interp) (pid : Pid) (passes : List Bool) :
    Selected id false (serve U pid passes) := by
  refine ⟨by rintro ⟨⟩,fun w => ⟨by rintro ⟨⟩,fun w₁ => ?_⟩⟩
  simp only [claims,Op.isSelect,Bool.false_eq_true,if_false,Prog.bind]
  split_ifs
  · trivial
  · split
    · trivial
    · rename_i config _
      have hstart : (startup pid config).Emits fun l => l.updatesSent id = false :=
        ⟨rfl,fun _ => ⟨rfl,fun _ => ⟨rfl,fun _ => ⟨rfl,fun _ => trivial⟩⟩⟩⟩
      exact (Selected.of_emits hstart false).bind fun _ => (worker_selected U passes).bind fun _ =>
        .of_made (ρ := {}) rfl (emit_made trivial)

/-- In every execution of a listener, to its end or to a crash, among any steps but another
dispatcher's: every outgoing row always shows the latest receipt accepted for it, exactly if no
receipt is accepted for it between a tick's select of the row and an update that the tick makes. -/
theorem receipts_kept_iff {U : Interp} {pid : Pid} {passes : List Bool} {q : Code Unit}
    {w w' : World} {t : List (Entry World Op)} (h : Exec NoUpdate (serve U pid passes) w t q w')
    (id : Str) : ReceiptKept id none t ↔ Undisturbed id false t :=
  receiptKept_iff h (serve_selected U pid passes) nofun nofun

/-- A bridge with one message to send. -/
def sending : World := after (World.new sampleMachine) ([
  .key (.putConfig sampleConfig),
  .sending (.enqueue sampleId.text (str "hello") (str "41:9"))] : List Op)

/-- The peer's receipt for the message. -/
def sampleReceipt : Op := .sending (.acceptReceipt (str "41:9") sampleId.text .held)

/-- A listener's first pass, with the receipt after `k` of its accesses. -/
def receiptAfter (k : ℕ) : List (Entry World Op) :=
  (interleave (serve .ascii 50 [false]) sending
    (List.replicate k none ++ some sampleReceipt :: List.replicate 16 none)).1

lemma receiptAfter_exec (k : ℕ) :
    ∃ q w', Exec NoUpdate (serve .ascii 50 [false]) sending (receiptAfter k) q w' := by
  refine ⟨_,_,interleave_exec _ ?_ _ _⟩
  intro l hl
  simp [sampleReceipt] at hl
  subst hl
  exact fun _ => rfl

/-- A receipt that arrives after the tick's last update stays. -/
theorem receipt_after_update_kept : ReceiptKept sampleId.text none (receiptAfter 15) := by
  obtain ⟨q,w',hrun⟩ := receiptAfter_exec 15
  exact (receipts_kept_iff hrun sampleId.text).mpr (by decide +kernel)

/-- A receipt that arrives between the socket write and the tick's last update is replaced. -/
theorem receipt_before_update_lost :
    ¬ ∀ (U : Interp) (pid : Pid) (passes : List Bool) (q : Code Unit) (w w' : World)
      (t : List (Entry World Op)), Exec NoUpdate (serve U pid passes) w t q w' →
      ∀ id, ReceiptKept id none t := by
  intro h
  obtain ⟨q,w',hrun⟩ := receiptAfter_exec 14
  have hkept := h _ _ _ _ _ _ _ hrun sampleId.text
  revert hkept
  decide +kernel

end PeerChat
