import PeerChat.Inbox.Content
import PeerChat.Inbox.DeliveredOnce

/-! The acknowledging read among the steps of the listener, the dispatcher and the hooks. It
selects its rows in one statement and acknowledges whatever is there in a later one, so what it
shows and what it acknowledges agree exactly where nothing unread came or went in between. -/
namespace PeerChat
open Python Relational Interleaving

/-- Another reader's acknowledgement. -/
def Op.acknowledges : Op → Bool
  | .inbox op => match op with
    | .readAck | .readAckFrom _ | .ackById .. => true
    | _ => false
  | _ => false

/-- The message is there and would be acknowledged. -/
def AckableAt (w : World) (key : Str × Str) : Prop :=
  ∃ st, w.store.status key = some st ∧ ackable st = true

/-- Every message that the acknowledgement made in `w` turns to consumed is shown, with its body. -/
def AckedAreShown (w : World) (rows : List MessageRow) : Prop :=
  ∀ key, w.store.status key ≠ some .consumed →
    (apply (Op.inbox .readAck) w).store.status key = some .consumed →
    ∃ r ∈ rows, r.key = key ∧ (w.store.messages.find key).map (·.body) = some r.body

/-- Every row shown as consumed is consumed in `w`. -/
def ShownAreAcked (w : World) (rows : List MessageRow) : Prop :=
  ∀ r ∈ rows, r.status = .consumed → w.store.status r.key = some .consumed

/-- Nothing but an acknowledgement consumes a message. -/
lemma StatusStep.to_consumed {op : Op} {a : Option Status} (hop : op.acknowledges = false)
    (h : StatusStep op a (some .consumed)) : a = some .consumed := by
  rcases h with h | h
  · exact h.symm
  · split at h
    · exact absurd h.2 (by decide)
    · cases hop
    · cases hop
    · cases hop
    · rename_i outcome _
      cases outcome <;> exact absurd h.2 (by decide)
    · rcases h.2 with h | h <;> cases h
    · exact absurd h.2 (by decide)
    · exact absurd h.2 (by decide)
    · exact absurd h.2 (by decide)
    · exact h.elim

abbrev NoAck (l : Op) : Prop := l.acknowledges = false

lemma drift_consumed {w w' : World} {t : List (Entry World Op)} (h : Drift NoAck w t w')
    (key : Str × Str) : w'.store.status key = some .consumed ↔ w.store.status key = some .consumed := by
  constructor
  · intro hc
    by_contra hn
    refine h.keeps (P := fun w => w.store.status key ≠ some .consumed) ?_ hn hc
    intro l w hl hw he
    have hstep := status_step l w key
    rw [he] at hstep
    exact hw (hstep.to_consumed hl)
  · intro hc
    refine h.keeps (P := fun w => w.store.status key = some .consumed) ?_ hc
    intro l w _ hw
    have hstep := status_step l w key
    rw [hw] at hstep
    exact hstep.of_consumed

lemma drift_retains {w w' : World} {t : List (Entry World Op)} (h : Drift NoAck w t w') :
    w.store.Retains w'.store := by
  induction h with
  | refl => exact .refl _
  | step _ _ ih => exact (retains_step _ _).trans ih

/-- What the acknowledging transaction does to one message. -/
lemma status_readAck (w : World) (key : Str × Str) :
    (AckableAt w key → (apply (Op.inbox .readAck) w).store.status key = some .consumed) ∧
    (¬ AckableAt w key →
      (apply (Op.inbox .readAck) w).store.status key = w.store.status key) := by
  have h : (apply (Op.inbox .readAck) w).store.status key =
      (w.store.messages.find key).map fun r => if ackable r.status then .consumed else r.status := by
    simp only [apply,Op.apply,InboxOp.apply,Store.readAck,Store.status_clearConsumedWake,
      Store.status_setRows]
  constructor
  · rintro ⟨st,hst,ha⟩
    obtain ⟨r,hr,rfl⟩ := Option.map_eq_some_iff.mp hst
    rw [h,hr,Option.map_some,if_pos ha]
  · intro hn
    rw [h,Store.status]
    cases hf : w.store.messages.find key with
    | none => rfl
    | some r =>
      have ha : ¬ ackable r.status = true := fun ha =>
        hn ⟨r.status,by rw [Store.status,hf,Option.map_some],ha⟩
      simp only [Option.map_some,if_neg ha]

/-- The rows that a read shows. -/
def shownRows (w : World) : List MessageRow :=
  ((w.store.select fun _ => true).map messageRecord).map acknowledgedRecord

lemma mem_shownRows {w : World} {r : MessageRow} : r ∈ shownRows w ↔
    ∃ x, w.store.messages.find x.key = some x ∧ acknowledgedRecord (messageRecord x) = r := by
  simp [shownRows,Store.mem_select]

lemma shown_record (x : MessageRow) : (acknowledgedRecord (messageRecord x)).key = x.key ∧
    (acknowledgedRecord (messageRecord x)).body = x.body ∧
    ((acknowledgedRecord (messageRecord x)).status = .consumed ↔
      x.status = .consumed ∨ ackable x.status = true) := by
  have hm : (messageRecord x).key = x.key ∧ (messageRecord x).body = x.body ∧
      (messageRecord x).status = x.status := by
    simp only [messageRecord]
    split_ifs <;> exact ⟨rfl,rfl,rfl⟩
  obtain ⟨hk,hb,hs⟩ := hm
  simp only [acknowledgedRecord,hs]
  split_ifs with ha
  · exact ⟨hk,hb,by simp [ha]⟩
  · exact ⟨hk,hb,by simp [ha,hs]⟩

/-- Among any steps but other acknowledgements, what an acknowledging read turns to consumed is
what it shows, exactly if every message that is unread at its update was there at its select, and
every message that was unread at its select still is at its update. -/
theorem readInbox_agrees_iff {w w' : World} {t : List (Entry World Op)} {rows : List MessageRow}
    (h : Exec NoAck (readInbox true) w t (.ret rows) w') :
    ∃ w₀ w₁, ownSteps t = [⟨.look .inbox,w₀⟩,⟨.inbox .readAck,w₁⟩] ∧
      (AckedAreShown w₁ rows ∧ ShownAreAcked w' rows ↔
        (∀ key, AckableAt w₁ key → (w₀.store.status key).isSome = true) ∧
        ∀ key, AckableAt w₀ key → AckableAt w₁ key) := by
  obtain ⟨d,w₀,u,hd,rfl,h₁⟩ := h.act_done
  obtain ⟨d₁,w₁,u₁,hd₁,rfl,h₂⟩ := h₁.act_done
  obtain ⟨hrows,hd₂⟩ := h₂.ret_done
  have hret := drift_retains hd₁
  rw [apply_look] at hd₁ hret
  refine ⟨w₀,w₁,by simp [hd.ownSteps,hd₁.ownSteps,hd₂.ownSteps],?_⟩
  have hrows : rows = shownRows w₀ := hrows
  subst hrows
  have hconsumed := drift_consumed hd₁
  have hfinal := drift_consumed hd₂
  constructor
  · rintro ⟨hshown,hacked⟩
    constructor
    · intro key hk
      have hne : w₁.store.status key ≠ some .consumed := by
        obtain ⟨st,hst,ha⟩ := hk
        rw [hst]
        rintro he
        cases he
        cases ha
      obtain ⟨r,hr,hrk,-⟩ := hshown key hne ((status_readAck w₁ key).1 hk)
      obtain ⟨x,hx,rfl⟩ := mem_shownRows.mp hr
      rw [(shown_record x).1] at hrk
      rw [← hrk,Store.status,hx]
      rfl
    · intro key hk
      by_contra hn
      obtain ⟨st,hst,ha⟩ := hk
      obtain ⟨x,hx,rfl⟩ := Option.map_eq_some_iff.mp hst
      have hxk : x.key = key := (Table.find_some hx).2
      subst hxk
      have hmem : acknowledgedRecord (messageRecord x) ∈ shownRows w₀ :=
        mem_shownRows.mpr ⟨x,hx,rfl⟩
      have hend := hacked _ hmem ((shown_record x).2.2.mpr (Or.inr ha))
      rw [(shown_record x).1] at hend
      -- the row was not consumed before the update, and the update has passed it by
      have h1 := (hfinal x.key).mp hend
      rw [(status_readAck w₁ x.key).2 hn] at h1
      have h0 := (hconsumed x.key).mp h1
      rw [hst] at h0
      have := Option.some.inj h0
      rw [this] at ha
      cases ha
  · rintro ⟨hthere,hstill⟩
    constructor
    · intro key hne hc
      have hk : AckableAt w₁ key := by
        by_contra hn
        exact hne (by rw [← (status_readAck w₁ key).2 hn]; exact hc)
      obtain ⟨st,hst⟩ := Option.isSome_iff_exists.mp (hthere key hk)
      obtain ⟨x,hx,-⟩ := Option.map_eq_some_iff.mp hst
      have hxk : x.key = key := (Table.find_some hx).2
      subst hxk
      obtain ⟨y,hy,hcontent⟩ := hret _ x hx
      refine ⟨_,mem_shownRows.mpr ⟨x,hx,rfl⟩,(shown_record x).1,?_⟩
      rw [hy,Option.map_some,(shown_record x).2.1]
      exact congrArg some (congrArg Prod.fst hcontent)
    · intro r hr hc
      obtain ⟨x,hx,rfl⟩ := mem_shownRows.mp hr
      rw [(shown_record x).1]
      refine (hfinal x.key).mpr ?_
      rcases (shown_record x).2.2.mp hc with hs | ha
      · -- consumed rows stay so
        have h0 : w₀.store.status x.key = some .consumed := by
          rw [Store.status,hx,Option.map_some,hs]
        have h1 := (hconsumed x.key).mpr h0
        have hstep := status_step (.inbox .readAck) w₁ x.key
        rw [h1] at hstep
        exact hstep.of_consumed
      · exact (status_readAck w₁ x.key).1
          (hstill x.key ⟨x.status,by rw [Store.status,hx,Option.map_some],ha⟩)

/-- The insertion of one message. -/
def sampleArrival : Op := .inbox (.accept (str "41:9") (str "m1") (str "hello") .prompting [])

/-- A read of a quiet inbox with one message in it. -/
theorem readInbox_agrees_quiet : ∃ w₁ w' rows,
    Exec NoAck (readInbox true) (apply sampleArrival (.new .bare))
      [⟨true,.look .inbox,apply sampleArrival (.new .bare)⟩,⟨true,.inbox .readAck,w₁⟩]
      (.ret rows) w' ∧ AckedAreShown w₁ rows ∧ ShownAreAcked w' rows := by
  have h : Exec NoAck (readInbox true) (apply sampleArrival (.new .bare)) _ (.ret _) _ :=
    .own (.own .refl)
  obtain ⟨w₀,w₁,hown,hiff⟩ := readInbox_agrees_iff h
  simp only [ownSteps_cons_own] at hown
  obtain ⟨rfl,rfl⟩ : w₀ = apply sampleArrival (.new .bare) ∧ w₁ = w₀ := by
    simp only [List.cons.injEq,Step.mk.injEq] at hown
    exact ⟨hown.1.2.symm,by rw [← hown.2.1.2,← hown.1.2]; rfl⟩
  refine ⟨_,_,_,h,hiff.mpr ⟨?_,fun key hk => hk⟩⟩
  rintro key ⟨st,hst,-⟩
  rw [hst]
  rfl

/-- A message that arrives between the select and the update is acknowledged, and not shown. -/
theorem readInbox_misses_arrival :
    ¬ ∀ (w w' : World) (t : List (Entry World Op)) (rows : List MessageRow),
      Exec NoAck (readInbox true) w t (.ret rows) w' → ∀ w₀ w₁,
      ownSteps t = [⟨.look .inbox,w₀⟩,⟨.inbox .readAck,w₁⟩] →
      AckedAreShown w₁ rows ∧ ShownAreAcked w' rows := by
  intro h
  have hrun : Exec NoAck (readInbox true) (.new .bare) _ (.ret []) _ :=
    .own (.foreign (l := sampleArrival) rfl (.own .refl))
  obtain ⟨hshown,-⟩ := h _ _ _ _ hrun _ _ rfl
  obtain ⟨r,hr,-⟩ := hshown (str "41:9",str "m1") (by decide +kernel) (by decide +kernel)
  cases hr

end PeerChat
