import PeerChat.Dispatch.Judged
import PeerChat.Inbox.Content
import PeerChat.Inbox.DeliveredOnce
import PeerChat.Wire.RoundTrip

/-! The order of automatic delivery. Rows get the time of their insertion, so with a clock that
does not go back a row that comes later is never older; hooks go through the unread rows from the
oldest on, and the queue mode has seen its row as the oldest. -/
namespace PeerChat
open Python Relational Wire Interleaving

instance : Std.Total fun a b : MessageRow => a.created ≤ b.created :=
  ⟨fun a b => le_total a.created b.created⟩

instance : IsTrans MessageRow fun a b => a.created ≤ b.created :=
  ⟨fun _ _ _ h h' => h.trans h'⟩

lemma Store.pending_sorted (s : Store) : s.pending.Pairwise fun a b => a.created ≤ b.created :=
  List.pairwise_insertionSort _ _

/-! The offering transaction. -/

/-- The loop deals with its rows from the first on, and leaves the others unread. -/
lemma offerRows_done {m : Machine} {config : Config} {rows : List MessageRow} {b b' : Batch}
    (h : offerRows m config rows b = .ok b') (hnd : (rows.map MessageRow.key).Nodup)
    (hrec : ∀ r ∈ rows, b.store.status r.key = some .received) :
    ∃ done rest, rows = done ++ rest ∧ (∀ r ∈ done, b'.store.status r.key ≠ some .received) ∧
      ∀ r ∈ rest, b'.store.status r.key = some .received := by
  induction rows generalizing b with
  | nil => exact ⟨[],[],rfl,by simp,by simp⟩
  | cons row rows ih =>
    -- the rest of the loop after an update of the first row
    have hstep : ∀ (st : Status) (d : Str) (c : Batch), st ≠ .received →
        c.store = b.store.setRows (isRow row) st d → offerRows m config rows c = .ok b' →
        ∃ done rest, row::rows = done ++ rest ∧
          (∀ r ∈ done, b'.store.status r.key ≠ some .received) ∧
          ∀ r ∈ rest, b'.store.status r.key = some .received := by
      intro st d c hst hc hrun
      obtain ⟨hrec',hrow⟩ := offerRows_rest hrun hc hnd hrec
      obtain ⟨done,rest,rfl,hdone,hrest⟩ := ih hrun (List.nodup_cons.mp hnd).2 hrec'
      refine ⟨row::done,rest,rfl,?_,hrest⟩
      intro r hr
      rcases List.mem_cons.mp hr with rfl | hr
      · rw [hrow]
        simpa using hst
      · exact hdone r hr
    rcases offerRows_cons h with rfl | ⟨reason,-,hrun⟩ | ⟨remaining,text,-,-,-,-,hrun⟩
    · exact ⟨[],row::rows,rfl,by simp,hrec⟩
    · exact hstep .held _ _ (by decide) rfl hrun
    · exact hstep .hookOffered _ _ (by decide) rfl hrun

/-- An offer that deals with a message leaves no older message unread. -/
lemma offer_in_order {m : Machine} {config : Config} {notice : Str} {s : Store} {r r' : MessageRow}
    (hr : r ∈ s.pending) (hr' : r' ∈ s.pending) (hold : r'.created < r.created)
    (hdealt : (offer m config notice s).status r.key ≠ some .received) :
    (offer m config notice s).status r'.key ≠ some .received := by
  cases hb : offerBatch m config notice s with
  | error exc =>
    rw [offer,hb] at hdealt
    exact absurd (Store.status_of_mem_pending hr) hdealt
  | ok ob =>
    cases ob with
    | none =>
      rw [offer,hb] at hdealt
      exact absurd (Store.status_of_mem_pending hr) hdealt
    | some b =>
      rw [offer,hb] at hdealt ⊢
      rw [Store.status_setKeys] at hdealt ⊢
      obtain ⟨-,pieces,hrows⟩ := offerBatch_some hb
      obtain ⟨done,rest,hsplit,hdone,hrest⟩ :=
        offerRows_done hrows (s.pending_take_nodup 4) (s.pending_take_status 4)
      -- all the unread rows are those dealt with, and later ones that the loop leaves alone
      have hall : s.pending = done ++ (rest ++ s.pending.drop 4) := by
        rw [← List.append_assoc,← hsplit,List.take_append_drop]
      have hleft : ∀ x ∈ rest ++ s.pending.drop 4, b.store.status x.key = some .received := by
        intro x hx
        rcases List.mem_append.mp hx with hx | hx
        · exact hrest x hx
        · exact offerRows_behind hrows rfl x hx
      have hsorted := s.pending_sorted
      rw [hall] at hr hr' hsorted
      have hrd : r ∈ done := by
        rcases List.mem_append.mp hr with h | h
        · exact h
        · exact absurd (hleft r h) hdealt
      rcases List.mem_append.mp hr' with h | h
      · exact hdone r' h
      · exact absurd hold (not_lt.mpr ((List.pairwise_append.mp hsorted).2.2 r hrd r' h))

/-! Rows that come later. -/

/-- The clock does not go back in a step. -/
def ClockForward (t : Step World Op) : Prop := t.pre.machine.now ≤ t.post.machine.now

instance : DecidablePred ClockForward := fun _ => inferInstanceAs (Decidable (_ ≤ _))

/-- No message is younger than the clock. -/
def Dated (w : World) : Prop :=
  ∀ key r, w.store.messages.find key = some r → r.created ≤ w.machine.now

/-- No message older than `at` is unread. -/
def NoneOlder (time : Time) (w : World) : Prop :=
  time ≤ w.machine.now ∧ ∀ key r, w.store.messages.find key = some r → r.created < time →
    r.status ≠ .received

/-- A row after a step is one from before, or a new one. -/
lemma row_before {op : Op} {w : World} {key : Str × Str} {r : MessageRow}
    (h : (apply op w).store.messages.find key = some r) :
    (∃ r₀, w.store.messages.find key = some r₀ ∧ r₀.created = r.created ∧
      (r.status = .received → r₀.status = .received)) ∨ r.created = w.machine.now := by
  cases hf : w.store.messages.find key with
  | none =>
    obtain ⟨body,mode,-,hcreated⟩ := accepted_of_new hf h
    exact Or.inr hcreated
  | some r₀ =>
    obtain ⟨x,hx,hc⟩ := retains_step op w key r₀ hf
    rw [h] at hx
    cases hx
    refine Or.inl ⟨r₀,rfl,(congrArg (·.2.2.2) hc).symm,fun hr => ?_⟩
    have hstep := status_step op w key
    rw [Store.status,Store.status,hf,h,Option.map_some,Option.map_some,hr] at hstep
    rcases hstep.to_received with he | ⟨he,-⟩
    · exact Option.some.inj he
    · cases he

lemma Dated.step {t : Step World Op} (hclock : ClockForward t) (h : Dated t.pre) :
    Dated t.post := by
  intro key r hr
  rcases row_before hr with ⟨r₀,hr₀,hc,-⟩ | hn
  · exact hc ▸ (h key r₀ hr₀).trans hclock
  · exact hn ▸ hclock

lemma NoneOlder.step {time : Time} {t : Step World Op} (hclock : ClockForward t)
    (h : NoneOlder time t.pre) : NoneOlder time t.post := by
  refine ⟨h.1.trans hclock,?_⟩
  intro key r hr hlt hrec
  rcases row_before hr with ⟨r₀,hr₀,hc,hst⟩ | hn
  · exact h.2 key r₀ hr₀ (hc ▸ hlt) (hst hrec)
  · exact absurd (hn ▸ hlt) (not_lt.mpr h.1)

/-- The oldest unread row leaves no older one unread. -/
lemma noneOlder_head {w : World} {row : MessageRow} (hd : Dated w)
    (h : w.store.pending.head? = some row) : NoneOlder row.created w := by
  obtain ⟨rows,hrows⟩ := List.head?_eq_some_iff.mp h
  have hrow : row ∈ w.store.pending := by simp [hrows]
  refine ⟨hd _ _ (Store.mem_select.mp hrow).1,?_⟩
  intro key r hr hlt hrec
  have hk : r.key = key := (Table.find_some hr).2
  have hmem : r ∈ w.store.pending := Store.mem_select.mpr ⟨hk ▸ hr,by simpa using hrec⟩
  have hsorted := w.store.pending_sorted
  rw [hrows] at hmem hsorted
  rcases List.mem_cons.mp hmem with rfl | hmem
  · exact lt_irrefl _ hlt
  · exact not_lt.mpr ((List.pairwise_cons.mp hsorted).1 r hmem) hlt

/-! Whole runs. -/

/-- In every run from a new database whose clock does not go back: when a message is handed over,
by a hook or by the queue mode, no message that is older by its time of arrival is left unread. -/
theorem no_overtaking (U : Interp) (honest : Bool) (m : Machine) (es : Schedule)
    (hclock : ∀ t ∈ (bridge U honest).trace (.idle (.new m)) es, ClockForward t) :
    ∀ t ∈ (bridge U honest).trace (.idle (.new m)) es, ∀ key r,
      t.pre.store.messages.find key = some r → HandsOver key t →
      ∀ key' r', t.post.store.messages.find key' = some r' → r'.created < r.created →
        r'.status ≠ .received := by
  intro t ht key r hr hhand key' r' hr' hlt hrec
  obtain ⟨hreceived,hauto⟩ := hhand.step
  have hkey : r.key = key := (Table.find_some hr).2
  have hrr : r.status = .received := by
    rw [Store.status,hr,Option.map_some] at hreceived
    exact Option.some.inj hreceived
  have hdated : ∀ t ∈ (bridge U honest).trace (.idle (.new m)) es, Dated t.pre :=
    (System.trace_invariant (P := Dated) (fun _ _ h => by cases h)
      fun t ht => Dated.step (hclock t ht)).1
  -- the older message was unread before the step
  obtain ⟨r₀,hr₀,hc₀,hrec₀⟩ : ∃ r₀, t.pre.store.messages.find key' = some r₀ ∧
      r₀.created = r'.created ∧ r₀.status = .received := by
    rcases @row_before t.label _ _ _ hr' with ⟨r₀,hr₀,hc,hst⟩ | hn
    · exact ⟨r₀,hr₀,hc,hst hrec⟩
    · exact absurd (hn ▸ hlt) (not_lt.mpr (hdated t ht key r hr))
  rw [← hc₀] at hlt
  obtain ⟨l,w⟩ := t
  cases l with
  | inbox op =>
    cases op with
    | offer config notice =>
      have hmem : ∀ {k x}, w.store.messages.find k = some x → x.status = .received →
          x ∈ w.store.pending := by
        intro k x hx hst
        exact Store.mem_select.mpr ⟨(Table.find_some hx).2 ▸ hx,by simpa using hst⟩
      have hdealt : (offer w.machine config notice w.store).status r.key ≠ some .received := by
        rw [hkey]
        intro he
        rcases hhand.2 with h | h <;> cases he.symm.trans h
      have := offer_in_order (hmem hr hrr) (hmem hr₀ hrec₀) hlt hdealt
      rw [(Table.find_some hr₀).2] at this
      refine this ?_
      exact (congrArg (Option.map (·.status)) hr').trans (congrArg some hrec)
    | claimForwarding peer id =>
      rw [← System.log_steps] at ht
      obtain ⟨rec,hrecord,hstep⟩ := List.mem_map.mp ht
      rcases log_judged U honest (.new m) es rec hrecord with hout | ⟨i,hi,hjudged⟩
      · rw [hstep] at hout
        cases hout
      · rw [hstep] at hjudged
        obtain ⟨config,m',row,-,-,hrow,hrk,-⟩ := hjudged
        obtain ⟨w₀,hfound,hhead⟩ := Option.bind_eq_some_iff.mp hrow
        have hseen := lastFound_mem hfound
        -- the queue mode has seen the row as the oldest one
        have hkept : NoneOlder row.created w ∧
            ∃ x, w.store.messages.find (peer,id) = some x ∧ x.created = row.created := by
          have hw : w = rec.step.pre := by rw [hstep]
          rw [hw]
          refine System.past_kept (P := fun w => NoneOlder row.created w ∧
            ∃ x, w.store.messages.find (peer,id) = some x ∧ x.created = row.created) ?_ hrecord hi
            hseen ?_
          · rintro t ht ⟨hold,x,hx,hxc⟩
            refine ⟨hold.step (hclock t ht),?_⟩
            obtain ⟨y,hy,hyc⟩ := retains_step t.label t.pre _ x hx
            exact ⟨y,hy,(congrArg (·.2.2.2) hyc).trans hxc⟩
          · refine ⟨noneOlder_head (hdated _ (System.before_mem hrecord hi hseen)) hhead,row,?_,rfl⟩
            rw [← hrk]
            exact (Store.mem_select.mp (List.mem_of_mem_head? hhead)).1
        obtain ⟨hold,x,hx,hxc⟩ := hkept
        have hk : key = (peer,id) := by
          by_contra hne
          exact hhand.1 (claimForwarding_status_other w.store hne)
        rw [hk,hx] at hr
        cases hr
        exact hold.2 key' r₀ hr₀ (hxc ▸ hlt) hrec₀
    | _ => cases hauto
  | _ => cases hauto

/-- A bridge starts in mode `queue`, two messages arrive one after the other, and its listener makes
one pass. -/
def queuedRun : Schedule :=
  .start 0 (.start {
    thread := sampleId.text
    ownerPid := some 7
    requested := some (.ok samplePeer)
    delivery := some .queue
    socket := str "/run/own.sock" }) :: List.replicate 20 (.step 0) ++
  [.start 1 (.accept (str "41:9") (.message (str "m1") (str "hello") .prompting [])),.step 1,
    .outside (.outside { sampleMachine with now := 5 }),
    .start 2 (.accept (str "41:9") (.message (str "m2") (str "hello") .prompting [])),.step 2,
    .start 3 (.serve 50 [false])] ++ List.replicate 20 (.step 3)

/-- The first of the two is handed over, and no older one waits. -/
theorem no_overtaking_queued :
    (∃ t ∈ (bridge .ascii true).trace (.idle (.new sampleMachine)) queuedRun,
      HandsOver (str "41:9",str "m1") t) ∧
    ∀ t ∈ (bridge .ascii true).trace (.idle (.new sampleMachine)) queuedRun, ∀ key r,
      t.pre.store.messages.find key = some r → HandsOver key t →
      ∀ key' r', t.post.store.messages.find key' = some r' → r'.created < r.created →
        r'.status ≠ .received :=
  ⟨by decide +kernel,no_overtaking .ascii true sampleMachine queuedRun (by decide +kernel)⟩

end PeerChat
