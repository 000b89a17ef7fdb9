import PeerChat.Bridge.Destination
import PeerChat.Mesh.Keeps

/-! Every program of a session keeps what the mesh rests on, whatever the others do in between. -/
namespace PeerChat.Mesh
open Python Relational Wire Interleaving

variable {U : Interp} {K : Str → Prop} {es : Schedule}

/-- From states where `P` holds, the program makes guaranteed accesses only. -/
abbrev Keeps {α : Type} (U : Interp) (K : Str → Prop) (es : Schedule) (P : World → Prop)
    (p : Code α) : Prop :=
  Sat (Kept U K es) (fun _ _ => True) (Guarantee U K es) P p fun _ _ => True

/-- An access of which nothing is asked. -/
def quiet : Op → Bool
  | .inbox (.accept ..) | .sending (.enqueue ..) | .sending (.sendFrame ..)
  | .sending (.finish _ .written _) | .key (.putReplyTo ..) | .key (.putConfig _)
  | .key (.enroll ..) | .key (.stopBridge _) => false
  | _ => true

lemma guarantee_of_quiet {w : World} {op : Op} (h : quiet op = true) : Guarantee U K es w op := by
  unfold Guarantee
  split <;> trivial

lemma keeps_of_quiet {α : Type} {P : World → Prop} {p : Code α}
    (h : p.Emits fun l => quiet l = true) : Keeps U K es P p :=
  (Sat.of_emits h fun _ _ _ hq => guarantee_of_quiet hq).mono fun _ _ => trivial

/-! Commands and hooks. -/

lemma quiet_ofCommand {l : Op} (h : l.ofCommand = true) : quiet l = true := by
  unfold Op.ofCommand at h
  split at h
  all_goals first | rfl | cases h

lemma keeps_ofCommand {α : Type} {P : World → Prop} {p : Code α}
    (h : p.Emits fun l => l.ofCommand = true) : Keeps U K es P p :=
  keeps_of_quiet (h.imp fun _ => quiet_ofCommand)

lemma quiet_ofHook {l : Op} (h : l.ofHook = true) : quiet l = true := by
  cases l with
  | inbox op => cases op <;> first | rfl | cases h
  | key op => cases op <;> first | rfl | cases h
  | look what => rfl
  | _ => cases h

/-! Accepted frames and messages that are sent. -/

lemma accept_keeps {peer : Str} {f : Frame} (h : Starts es (.accept peer f)) :
    Keeps U K es (fun _ => True) (accept peer f) := by
  cases f with
  | message mid body mode hops =>
    intro w _ _
    exact ⟨h,_,stable_true,trivial,fun _ _ => trivial⟩
  | notice state warning remaining =>
    exact keeps_of_quiet ⟨rfl,fun _ => ⟨rfl,fun _ => trivial⟩⟩
  | receipt mid body =>
    refine keeps_of_quiet ⟨rfl,fun w => ?_⟩
    simp only [Prog.bind]
    split_ifs
    · trivial
    · exact ⟨rfl,fun _ => trivial⟩

/-- The insertion at the end of a `send`. -/
lemma enqueueTo_keeps {args : SendArgs} {P : World → Prop} {target : Option Str}
    (h : ∀ key, target = some key → ∀ w, P w → Queued es w args.id.text (some key)) :
    Keeps U K es P (enqueueTo args target) := by
  cases target with
  | none => exact fun _ _ => trivial
  | some key =>
    intro w _ hP
    exact ⟨h key rfl w hP,_,stable_true,trivial,fun _ _ => trivial⟩

/-- A reply is noted with what it replies to, and goes to where that has come from. -/
lemma send_keeps {args : SendArgs} (h : Starts es (.send args)) :
    Keeps U K es (fun _ => True) (send U args) := by
  intro w _ _
  refine ⟨trivial,_,stable_true,trivial,?_⟩
  simp only [Prog.bind]
  split_ifs
  · exact fun _ _ => trivial
  · intro w₁ _ _
    refine ⟨trivial,_,stable_true,trivial,?_⟩
    simp only [Prog.bind]
    split
    · exact fun _ _ => trivial
    · split
      · rename_i replied hreplied
        intro w₂ _ _
        -- the row whose sender is chosen
        let found (w : World) : Prop := ∀ target, target ∈ (w₂.store.messages.rows.filter fun r =>
          r.id = replied).map (·.peer) → ∃ row, w.store.messages.find (target,replied) = some row
        refine ⟨trivial,found,stable_of_grows ?_,?_,?_⟩
        · intro v v' hg hv target ht
          obtain ⟨row,hrow⟩ := hv target ht
          obtain ⟨row',hrow',-⟩ := hg.messages _ row hrow
          exact ⟨row',hrow'⟩
        · intro target ht
          obtain ⟨row,hrow,rfl⟩ := List.mem_map.mp ht
          rw [List.mem_filter,decide_eq_true_eq] at hrow
          obtain ⟨hmem,rfl⟩ := hrow
          exact ⟨row,Table.find_of_mem hmem⟩
        · intro w₃ _ hfound
          refine ⟨trivial,found,stable_of_grows ?_,hfound,?_⟩
          · intro v v' hg hv target ht
            obtain ⟨row,hrow⟩ := hv target ht
            obtain ⟨row',hrow',-⟩ := hg.messages _ row hrow
            exact ⟨row',hrow'⟩
          · simp only [Prog.bind]
            split
            · rename_i target hchoices
              have htarget : target ∈ (w₂.store.messages.rows.filter fun r =>
                  r.id = replied).map (·.peer) := by
                have hmem : target ∈ [target] := List.mem_singleton.mpr rfl
                rw [← hchoices] at hmem
                exact (List.mem_filter.mp hmem).1
              split_ifs
              · intro w₄ _ hfound₄
                refine ⟨⟨args,h,rfl,hreplied⟩,fun w => (args.id.text,replied) ∈ w.store.keys.replyTo ∧
                  ∃ row, w.store.messages.find (target,replied) = some row,stable_of_grows ?_,?_,?_⟩
                · intro v v' hg hv
                  obtain ⟨hmem,row,hrow⟩ := hv
                  obtain ⟨row',hrow',-⟩ := hg.messages _ row hrow
                  exact ⟨hg.replies _ hmem,row',hrow'⟩
                · exact ⟨List.mem_append_right _ (List.mem_singleton.mpr rfl),
                    hfound₄ target htarget⟩
                · simp only [Prog.bind]
                  refine enqueueTo_keeps fun key hkey v hv => ?_
                  cases hkey
                  refine ⟨args,h,rfl,fun r hr => ?_⟩
                  rw [hreplied] at hr
                  cases hr
                  obtain ⟨hmem,row,hrow⟩ := hv
                  exact ⟨hmem,target,row,rfl,hrow⟩
              · exact fun _ _ => trivial
            · exact fun _ _ => trivial
      · rename_i hnone
        intro w₂ _ _
        refine ⟨trivial,_,stable_true,trivial,enqueueTo_keeps fun key _ v _ => ?_⟩
        refine ⟨args,h,rfl,fun r hr => ?_⟩
        cases hnone.symm.trans hr

/-! The dispatcher. -/

lemma finishSend_error (id : Str) (exc : Exc) :
    (finishSend id (.error exc)).Emits fun l => quiet l = true := by
  unfold finishSend
  dsimp only
  split_ifs
  · exact ⟨rfl,fun _ => trivial⟩
  · trivial

/-- Only a frame that has been written is finished as such. -/
lemma finishSend_keeps (id : Str) (r : Except Exc Unit) :
    Keeps U K es (fun w => ∃ e ∈ w.wire, e.1 = id) (finishSend id r) := by
  cases r with
  | error exc => exact keeps_of_quiet (finishSend_error id exc)
  | ok u =>
    intro w _ h
    exact ⟨h,_,stable_true,trivial,fun _ _ => trivial⟩

variable (huniq : ∀ args args', Starts es (.send args) → Starts es (.send args') →
  args.id.text = args'.id.text → args = args')

/-- The destination of the row that the dispatcher has selected. -/
def Addressed (row : OutgoingRow) (w : World) : Prop := addressee w.store row.id = some row.peer

lemma stable_addressed {I : World → Prop} {R : World → Op → Prop} (row : OutgoingRow) :
    Stable I R (Addressed row) :=
  stable_of_grows fun _ _ hg h => hg.addressees _ _ h

include huniq in
/-- The hops that a frame continues are those of the message that is replied to. -/
lemma replyHops_keeps {row : OutgoingRow} {peer : Option Str}
    (hpeer : ∀ key, row.peer = some key → key ≠ [] → peer = some key) :
    Sat (Kept U K es) (fun _ _ => True) (Guarantee U K es) (Addressed row) (replyHops peer row)
      fun hops w => Addressed row w ∧ Continues es w row.id row.peer hops := by
  intro w hI haddr
  obtain ⟨args,hargs,hid,hqueued⟩ := hI.queued _ _ haddr
  refine ⟨trivial,fun v => Addressed row v ∧ Queued es v row.id row.peer,stable_of_grows ?_,
    ⟨haddr,args,hargs,hid,hqueued⟩,?_⟩
  · intro v v' hg hv
    exact ⟨hg.addressees _ _ hv.1,hv.2.grows hg⟩
  · simp only [Prog.bind]
    cases hlookup : w.store.keys.replyTo.lookup row.id with
    | none =>
      intro v hv
      refine ⟨hv.1,args,hargs,hid,fun _ => rfl,fun key replied _ _ hr => ?_⟩
      have hmem := (hqueued replied hr).1
      rw [List.lookup_eq_none_iff] at hlookup
      exact absurd rfl (bne_iff_ne.mp (hlookup _ hmem))
    | some target =>
      -- the entry is that of this message
      have htarget : args.replyTo = some target := by
        obtain ⟨front,back,hlist,-⟩ := List.lookup_eq_some_iff.mp hlookup
        have hmem : (row.id,target) ∈ w.store.keys.replyTo := by
          rw [hlist]
          simp
        obtain ⟨args',hargs',hid',hr'⟩ := hI.replies _ _ hmem
        rw [huniq args args' hargs hargs' (hid.trans hid'.symm)]
        exact hr'
      split_ifs with htruthy
      · intro v _ hv
        refine ⟨trivial,fun v' => Addressed row v' ∧ Continues es v' row.id row.peer
          (((v.store.messages.find (peer.getD [],target)).map (·.hops)).getD []),stable_of_grows ?_,
          ⟨hv.1,args,hargs,hid,fun hnone => ?_,fun key replied hkey hne hr _ => ?_⟩,fun _ h => h⟩
        · intro u u' hg hu
          exact ⟨hg.addressees _ _ hu.1,hu.2.grows hg⟩
        · cases htarget.symm.trans hnone
        · cases htarget.symm.trans hr
          obtain ⟨args',hargs',hid',h'⟩ := hv.2
          obtain rfl := huniq args args' hargs hargs' (hid.trans hid'.symm)
          obtain ⟨-,key',found,hkey',hfound⟩ := h' target htarget
          cases hkey.symm.trans hkey'
          refine ⟨found,hfound,?_⟩
          rw [hpeer key hkey hne,Option.getD_some,hfound]
          rfl
      · intro v hv
        refine ⟨hv.1,args,hargs,hid,fun hnone => ?_,fun key replied _ _ hr hne => ?_⟩
        · cases htarget.symm.trans hnone
        · cases htarget.symm.trans hr
          exact absurd (by simpa [truthy] using hne) htruthy

include huniq in
lemma dispatchOutgoing_keeps {config : Config} (hc : LinkedTable K config.toPeerTable)
    (hK : ∀ key, K key → key ≠ []) (row : OutgoingRow) :
    Keeps U K es (Addressed row) (dispatchOutgoing U config row) := by
  intro w _ haddr
  refine ⟨trivial,Addressed row,stable_addressed row,?_,?_⟩
  · exact (grows_step (.sending (.markWriting row.id)) w).addressees _ _ haddr
  · intro w₁ _ h₁
    refine ⟨trivial,Addressed row,stable_addressed row,h₁,?_⟩
    simp only [Prog.bind]
    split
    · exact keeps_of_quiet (finishSend_error _ _)
    · rename_i peer hroute
      have hpeer : ∀ key, row.peer = some key → key ≠ [] →
          (if truthy row.peer then row.peer else config.legacyIdentity) = some key := by
        intro key hkey hne
        rw [if_pos (by simpa [truthy,hkey] using hne),hkey]
      have hkind : ∀ key, row.peer = some key → K key → peer.kind = some .codex := by
        intro key hkey hk
        rw [hpeer key hkey (hK key hk)] at hroute
        exact hc.routed hk hroute
      refine (replyHops_keeps huniq hpeer).bind fun hops => ?_
      intro w₂ _ h₂
      refine ⟨trivial,fun w => Addressed row w ∧ Continues es w row.id row.peer hops,
        stable_of_grows fun _ _ hg h => ⟨hg.addressees _ _ h.1,h.2.grows hg⟩,h₂,?_⟩
      simp only [Prog.bind]
      split
      · exact keeps_of_quiet (finishSend_error _ _)
      · rename_i target data hout
        intro w₃ _ h₃
        refine ⟨⟨_,_,_,_,_,_,_,h₃.1,hout,hkind,h₃.2⟩,fun w => ∃ e ∈ w.wire, e.1 = row.id,
          stable_of_grows ?_,?_,finishSend_keeps _ _⟩
        · intro v v' hg hv
          obtain ⟨e,he,hid⟩ := hv
          exact ⟨e,hg.wire e he,hid⟩
        · exact ⟨(row.id,data),List.mem_append_right _ (List.mem_singleton.mpr rfl),rfl⟩

include huniq in
lemma dispatch_keeps {config : Config} (hc : LinkedTable K config.toPeerTable)
    (hK : ∀ key, K key → key ≠ []) : Keeps U K es (fun _ => True) (dispatch U config) := by
  intro w _ _
  cases hrow : w.store.nextPending with
  | some row =>
    refine ⟨trivial,Addressed row,stable_addressed row,?_,?_⟩
    · have hmem := List.mem_of_head? hrow
      rw [Table.select_mem] at hmem
      change (w.store.outgoing.find row.id).map (·.peer) = some row.peer
      rw [Table.find_of_mem hmem.1,Option.map_some]
    · simp only [Prog.bind,hrow]
      exact dispatchOutgoing_keeps huniq hc hK row
  | none =>
    refine ⟨trivial,_,stable_true,trivial,?_⟩
    simp only [Prog.bind,hrow]
    refine keeps_of_quiet (dispatchInbox_emits (fun _ _ => rfl) (fun op hop => ?_) (fun _ => rfl) config)
    cases op <;> first | rfl | cases hop

include huniq in
lemma serve_keeps (hK : ∀ key, K key → key ≠ []) (pid : Pid) (passes : List Bool) :
    Keeps U K es (fun _ => True) (serve U pid passes) := by
  refine serve_sat_read (C := fun c => LinkedTable K c.toPeerTable) ?_
    (fun w config hI hc => hI.config config hc) U (fun config hc => dispatch_keeps huniq hc hK) pid
    passes
  intro l w _ hl
  apply guarantee_of_quiet
  cases l with
  | key op => cases op <;> first | rfl | cases hl
  | look what => rfl
  | restart => rfl
  | _ => cases hl

/-! Starting and stopping. -/

/-- The table with the requested peer in it, and the default destination. -/
lemma writePeers_keeps {requested : Option (Str × PeerRecord)} {config : Config}
    (hreq : ∀ key record, requested = some (key,record) → LinkedRecord K record)
    (hc : LinkedTable K config.toPeerTable) :
    Keeps U K es (fun _ => True) (writePeers requested config) := by
  unfold writePeers
  refine Sat.bind (Q := fun (c : Config) _ => LinkedTable K c.toPeerTable) ?_ fun c => ?_
  · cases requested with
    | none =>
      intro w _ _
      refine ⟨trivial,_,stable_true,trivial,fun w₁ _ _ => ?_⟩
      have hpeers := hc.of_peers fun p hp => (hc.allPeers (m := w.machine) hp).1
      exact ⟨hpeers,_,stable_true,trivial,fun _ _ => hpeers⟩
    | some p =>
      intro w hI _
      refine ⟨hreq p.1 p.2 rfl,_,stable_true,trivial,fun _ _ => ?_⟩
      cases hw : (PeerChat.enroll w.machine p.1 p.2 w.store.keys).config with
      | none =>
        rw [Option.getD_none]
        exact hc
      | some c =>
        obtain ⟨c₀,hc₀,rfl⟩ := Option.map_eq_some_iff.mp hw
        exact (hI.config c₀ hc₀).enrollTable (hreq p.1 p.2 rfl)
  · split_ifs
    · exact fun _ _ => trivial
    · intro w _ hlinked
      exact ⟨trivial,_,stable_true,trivial,fun _ _ _ =>
        ⟨hlinked,_,stable_true,trivial,fun _ _ => trivial⟩⟩

lemma writeBridge_keeps (args : StartArgs) (previous : Option Config)
    {requested : Option (Str × PeerRecord)} {config : Config} (runtime : Option Runtime) (live : Bool)
    (hreq : ∀ key record, requested = some (key,record) → LinkedRecord K record)
    (hc : LinkedTable K config.toPeerTable) :
    Keeps U K es (fun _ => True) (writeBridge args previous requested config runtime live) := by
  have howner := writeOwner_emits (P := fun l => quiet l = true) rfl (fun _ => rfl) previous
    config.ownerIdentity
  refine Sat.bind (keeps_of_quiet howner) fun _ => ?_
  intro w _ _
  refine ⟨hc,_,stable_true,trivial,?_⟩
  simp only [Prog.bind]
  refine Sat.bind (writePeers_keeps hreq hc) fun _ => ?_
  have hmode := writeMode_emits (P := fun l => quiet l = true) (fun _ => rfl) args previous
  have hwindow := writeWindow_emits (P := fun l => quiet l = true) (fun _ _ => rfl) args previous
  have hseed := seedSavedHook_emits (P := fun l => quiet l = true) rfl rfl fun _ _ _ => rfl
  have hreplace := replaceListener_emits (P := fun l => quiet l = true) rfl (fun _ => rfl) runtime live
  exact keeps_of_quiet (hmode.bind fun _ => hwindow.bind fun _ => hseed.bind fun _ => hreplace)

section
variable {args : StartArgs}
  (hreq : ∀ record, args.requested = some (.ok record) → LinkedRecord K record)

include hreq in
lemma startChecked_keeps {previous : Option Config}
    (hprevious : ∀ c, previous = some c → LinkedTable K c.toPeerTable) :
    Keeps U K es (fun _ => True) (startChecked args previous) := by
  intro w _ _
  refine ⟨trivial,_,stable_true,trivial,?_⟩
  simp only [Prog.bind]
  split
  · exact fun _ _ => trivial
  · rename_i owner identity _
    intro w₁ _ _
    refine ⟨trivial,_,stable_true,trivial,fun w₂ _ _ => ⟨trivial,_,stable_true,trivial,?_⟩⟩
    simp only [Prog.bind]
    split_ifs
    · exact fun _ _ => trivial
    · split
      · rename_i requested executable hrequested _
        split
        · exact fun _ _ => trivial
        · refine writeBridge_keeps _ _ _ _ (fun key record hr => ?_) ?_
          · subst hr
            obtain ⟨record₀,hargs,hnormal⟩ := checkRequested_normal hrequested
            exact ((hreq record₀ hargs).normalise hnormal).1
          · cases previous with
            | some c => exact hprevious c rfl
            | none =>
              intro r hr
              obtain ⟨peers,hpeers,-⟩ | ⟨legacy,hlegacy,-⟩ := hr
              · cases hpeers
              · cases hlegacy
      · exact fun _ _ => trivial

include hreq in
lemma startBridge_keeps : Keeps U K es (fun _ => True) (startBridge args) := by
  intro w hI _
  have hprevious := hI.config
  refine ⟨trivial,_,stable_true,trivial,?_⟩
  simp only [Prog.bind]
  split_ifs
  · intro w₁ _ _
    refine ⟨trivial,_,stable_true,trivial,?_⟩
    simp only [Prog.bind]
    split_ifs
    · exact fun _ _ => trivial
    · exact startChecked_keeps hreq hprevious
  · exact startChecked_keeps hreq hprevious

end

/-- A restoration selects no peer. -/
lemma restore_keeps (row : Option Registration) (args : StartArgs) :
    Keeps U K es (fun _ => True) (restore row args) := by
  intro w _ _
  refine ⟨trivial,_,stable_true,trivial,?_⟩
  simp only [Prog.bind]
  split
  · intro w₁ _ _
    refine ⟨trivial,_,stable_true,trivial,?_⟩
    simp only [Prog.bind]
    split_ifs
    · exact fun _ _ => trivial
    · intro w₂ _ _
      refine ⟨trivial,_,stable_true,trivial,?_⟩
      simp only [Prog.bind]
      split_ifs
      · exact fun _ _ => trivial
      · intro w₃ _ _
        refine ⟨trivial,_,stable_true,trivial,?_⟩
        simp only [Prog.bind]
        have hwait := waitGone_emits (P := fun l => quiet l = true) rfl w₃.store.keys.runtime 120
        refine Sat.bind (keeps_of_quiet hwait) fun gone => ?_
        split_ifs
        · intro w₄ _ _
          refine ⟨trivial,_,stable_true,trivial,?_⟩
          simp only [Prog.bind]
          split_ifs
          · exact fun _ _ => trivial
          · intro w₅ _ _
            refine ⟨trivial,_,stable_true,trivial,?_⟩
            simp only [Prog.bind]
            split_ifs
            · exact fun _ _ => trivial
            · intro w₆ _ _
              exact ⟨trivial,_,stable_true,trivial,startBridge_keeps fun _ h => by cases h⟩
        · exact fun _ _ => trivial
  · exact fun _ _ => trivial

lemma stop_keeps : Keeps U K es (fun _ => True) stop := by
  intro w hI _
  have hstop : ∀ w', Guarantee U K es w' (.key (.stopBridge w.store.keys.config)) := by
    intro w'
    cases hc : w.store.keys.config with
    | none => trivial
    | some config => exact hI.config config hc
  exact ⟨trivial,_,stable_true,trivial,fun w₁ _ _ =>
    ⟨hstop w₁,_,stable_true,trivial,fun _ _ => trivial⟩⟩

/-! All processes that a run starts. -/

include huniq in
lemma code_keeps (hK : ∀ key, K key → key ≠ [])
    (hlinked : ∀ args record, Starts es (.start args) → args.requested = some (.ok record) →
      LinkedRecord K record) {p : Process} (h : Starts es p) :
    Keeps U K es (fun _ => True) (p.code U) := by
  cases p with
  | accept peer frame => exact (accept_keeps h).bind fun _ _ _ => trivial
  | read ack => exact (keeps_ofCommand (readInbox_ofCommand ack)).bind fun _ _ _ => trivial
  | readFrom peer ack =>
    exact (keeps_ofCommand (readFrom_ofCommand peer ack)).bind fun _ _ _ => trivial
  | readById selected mid ack =>
    exact (keeps_ofCommand (readById_ofCommand selected mid ack)).bind fun _ _ _ => trivial
  | deliver payload =>
    exact (keeps_of_quiet ((deliver_ofHook payload).imp fun _ => quiet_ofHook)).bind
      fun _ _ _ => trivial
  | serve pid passes => exact serve_keeps huniq hK pid passes
  | start args =>
    exact (startBridge_keeps fun record => hlinked args record h).bind fun _ _ _ => trivial
  | restore row args => exact (restore_keeps row args).bind fun _ _ _ => trivial
  | stop => exact stop_keeps
  | enableSupervision => exact keeps_of_quiet (emit_emits rfl)
  | send args => exact (send_keeps h).bind fun _ _ _ => trivial
  | configure mode budget =>
    exact (keeps_ofCommand (configure_ofCommand mode budget)).bind fun _ _ _ => trivial
  | connectSeed phase => exact keeps_of_quiet (emit_emits rfl)
  | connectOwn key => exact keeps_of_quiet ⟨rfl,fun _ => emit_emits rfl⟩

include huniq in
/-- A run keeps the invariant throughout, and each of its accesses is guaranteed. -/
theorem run_kept (hK : ∀ key, K key → key ≠ [])
    (hlinked : ∀ args record, Starts es (.start args) → args.requested = some (.ok record) →
      LinkedRecord K record) (m : Machine) :
    Kept U K es ((bridge U false).final (.idle (.new m)) es).state ∧
      ∀ t ∈ (bridge U false).trace (.idle (.new m)) es, Kept U K es t.pre ∧
        (Guarantee U K es t.pre t.label ∨ t.label.isOutside = true) := by
  classical
  have hS : ((bridge U false).only (Starts es)).Sound (Kept U K es) (fun _ _ _ => True)
      fun _ => Guarantee U K es :=
    { start := fun p w _ hstart => ⟨fun _ => True,stable_true,trivial,
        code_keeps huniq hK hlinked (System.only_allowed hstart).2⟩
      compat := fun _ _ _ _ _ _ _ => trivial
      outside := fun _ _ _ _ _ => trivial
      invariant := fun _ w op h hg => h.step hg
      invariant_outside := fun w op h hout => h.step <| by
        cases op with
        | outside m => trivial
        | _ => cases hout }
  have hall : ∀ i p, Event.start i p ∈ es → Starts es p := fun i p h => ⟨i,h⟩
  obtain ⟨hfinal,htrace⟩ := hS.trace_fair es (Pool.idle_safe (kept_new m))
  rw [System.only_final hall] at hfinal
  rw [System.only_trace hall] at htrace
  refine ⟨hfinal.1,fun t ht => ?_⟩
  obtain ⟨hkept,⟨-,hg⟩ | hout⟩ := htrace t ht
  · exact ⟨hkept,Or.inl hg⟩
  · exact ⟨hkept,Or.inr hout⟩

end PeerChat.Mesh
