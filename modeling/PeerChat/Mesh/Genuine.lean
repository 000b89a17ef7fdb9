import PeerChat.Dispatch.WrittenOnce
import PeerChat.Mesh.Hops
import PeerChat.Mesh.Sources

/-! Messages on the way between linked sessions. That the frames which are accepted with the key of a
session come from the writes of such a session, is assumed of a run; from there a message is followed
back to the process that sent it. -/
namespace PeerChat.Mesh
open Python Relational Wire Interleaving

variable {ι : Type} {U : Interp} {mesh : ι → Session} {m : ι → Machine} {run : ι → Schedule}

/-! The rows of one session. -/

section
variable {es : Schedule} {w : World} {honest : Bool}

/-- A frame that has been written was written by some access. -/
lemma written_by {t : Str × Bytes} (m : Machine)
    (h : t ∈ ((bridge U honest).final (.idle (.new m)) es).state.wire) :
    ∃ st ∈ (bridge U honest).trace (.idle (.new m)) es, st.label = .sending (.sendFrame t.1 t.2) := by
  by_contra hnone
  push Not at hnone
  refine (System.trace_invariant (P := fun w : World => t ∉ w.wire) ?_ ?_).2 h
  · intro hmem
    cases hmem
  · intro st hst hold hnew
    have hlabel := hnone st hst
    obtain ⟨op,w⟩ := st
    cases op with
    | sending op =>
      cases op with
      | sendFrame id data =>
        obtain hm | hm := List.mem_append.mp hnew
        · exact hold hm
        · obtain rfl := List.mem_singleton.mp hm
          exact hlabel rfl
      | _ => exact hold hnew
    | _ => exact hold hnew

/-- Every outgoing row is of a message that has been sent. -/
lemma bodies (m : Machine) (es : Schedule) :
    ∀ t ∈ (bridge U honest).trace (.idle (.new m)) es, ∀ id row,
      t.pre.store.outgoing.find id = some row →
        ∃ args, Starts es (.send args) ∧ args.id.text = id ∧ args.body = row.body := by
  have hstarted := System.trace_started (S := bridge U honest) (P := Enqueues) (code_enqueues U)
    (.new m) es
  refine (System.trace_invariant (P := fun w : World => ∀ id row,
    w.store.outgoing.find id = some row → ∃ args, Starts es (.send args) ∧ args.id.text = id ∧ args.body = row.body) ?_ ?_).1
  · intro id row hrow
    cases hrow
  · intro t ht hold id row hrow
    have hstep := sent_content_step t.label t.pre id
    change t.post.store.outgoing.find id = some row at hrow
    change (t.post.store.outgoing.find id).map _ = _ ∨ _ ∧ ∃ _ _, _ ∧
      (t.post.store.outgoing.find id).map _ = _ at hstep
    rw [hrow] at hstep
    obtain hsame | ⟨-,body,peer,hlabel,hcontent⟩ := hstep
    · obtain ⟨row₀,hrow₀,hcontent⟩ := Option.map_eq_some_iff.mp hsame.symm
      obtain ⟨args,hargs,hid,hbody⟩ := hold id row₀ hrow₀
      exact ⟨args,hargs,hid,hbody.trans (congrArg (·.1) hcontent)⟩
    · have hbody : row.body = body := congrArg (·.1) (Option.some.inj hcontent)
      have hsource := hstarted t ht
      rw [hlabel] at hsource
      obtain ⟨i,p,hp,args,rfl,hid,hargs⟩ | hout := hsource
      · exact ⟨args,⟨i,hp⟩,hid,hargs.trans hbody.symm⟩
      · cases hout

/-- Every stored message is as it was accepted. -/
lemma accepted_step {t : Step World Op} {key : Str × Str} {row : MessageRow}
    (hrow : t.post.store.messages.find key = some row) :
    (∃ r, t.pre.store.messages.find key = some r ∧ r.content = row.content) ∨
      t.label = .inbox (.accept key.1 key.2 row.body row.senderMode row.hops) := by
  obtain ⟨op,w⟩ := t
  cases hf : w.store.messages.find key with
  | some r =>
    obtain ⟨r',hr',hcontent⟩ := retains_step op w key r hf
    cases hr'.symm.trans hrow
    exact Or.inl ⟨r,rfl,hcontent.symm⟩
  | none =>
    right
    obtain ⟨body,mode,rfl,-⟩ := accepted_of_new hf hrow
    change (w.store.messages.insert ⟨key.1,key.2,body,mode,row.hops,.received,[],_⟩).find key =
      some row at hrow
    rw [Table.find_insert,hf,Option.getD_none] at hrow
    split_ifs at hrow
    rw [← Option.some.inj hrow]

/-- A row that is known, is known from then on. -/
lemma known_step (op : Op) (w : World) (id : Str) (h : ∃ st, w.store.sentStatus id = some st) :
    ∃ st, (apply op w).store.sentStatus id = some st := by
  obtain ⟨st,hst⟩ := h
  have hstep := sent_content_step op w id
  obtain ⟨row,hrow,rfl⟩ := Option.map_eq_some_iff.mp hst
  rw [hrow] at hstep
  obtain hsame | ⟨hnone,-⟩ := hstep
  · obtain ⟨row',hrow',-⟩ := Option.map_eq_some_iff.mp hsame
    exact ⟨row'.status,by rw [Store.sentStatus,hrow']; rfl⟩
  · cases hnone

lemma taken_step (op : Op) (w : World) (id : Str) (h : Taken id w) : Taken id (apply op w) := by
  obtain ⟨st,hst,hne⟩ := h
  have hstep := sent_step op w id
  rw [hst] at hstep
  exact hstep.not_pending hne

end

/-- What every access of a run goes by. -/
lemma log_sourced (U : Interp) (honest : Bool) (w : World) (es : Schedule) :
    ∀ r ∈ (bridge U honest).log w es, r.step.label.isOutside = true ∨
      ∃ i, r.process = some i ∧ Sourced U r.before r.step := by
  intro r hr
  have h := (System.log_explained (code_sourced U) es (System.known_idle w)).2 r hr
  unfold System.Explained at h
  cases hp : r.process with
  | none =>
    rw [hp] at h
    exact Or.inl h
  | some i =>
    rw [hp] at h
    exact Or.inr ⟨i,rfl,h⟩

/-- A row that some access has marked is not pending at the end. -/
lemma taken_of_marked {honest : Bool} {m : Machine} {es : Schedule} {id : Str} {st : Step World Op}
    (hst : st ∈ (bridge U honest).trace (.idle (.new m)) es)
    (hlabel : st.label = .sending (.markWriting id)) :
    Taken id ((bridge U honest).final (.idle (.new m)) es).state := by
  -- its process has selected the row before
  have hlog := hst
  rw [← System.log_steps] at hlog
  obtain ⟨r,hr,rfl⟩ := List.mem_map.mp hlog
  have hsourced := log_sourced U honest _ es r hr
  unfold Sourced at hsourced
  rw [hlabel] at hsourced
  obtain hout | ⟨i,hi,row,⟨w,hw,hrow⟩,hid⟩ := hsourced
  · cases hout
  · have hknown : ∃ st, r.step.pre.store.sentStatus id = some st := by
      refine System.past_kept (P := fun w => ∃ st, w.store.sentStatus id = some st)
        (fun t _ h => known_step t.label t.pre id h) hr hi hw ?_
      have hmem := (Table.select_mem.mp (List.mem_of_head? hrow)).1
      change ∃ st, w.store.sentStatus id = some st
      exact ⟨row.status,by rw [Store.sentStatus,← hid,Table.find_of_mem hmem]; rfl⟩
    have hpost : Taken id r.step.post := by
      obtain ⟨st,hst⟩ := hknown
      refine ⟨.writing,?_,by simp⟩
      unfold Step.post
      rw [hlabel]
      change (r.step.pre.store.markWriting id).sentStatus id = _
      rw [Store.sentStatus_markWriting,if_pos rfl,hst]
      rfl
    obtain ⟨front,back,hcut⟩ := List.append_of_mem hst
    obtain ⟨ms,-,hfinal⟩ := System.trace_cut hcut
    rw [hfinal]
    exact after_induction hpost fun op _ w => taken_step op w id

/-! All sessions. -/

/-- A session has sent a message: a process of it got the text, the row has been taken, and the mode
is what the permissions of the thread have said meanwhile. -/
structure Origin (U : Interp) (m : ι → Machine) (run : ι → Schedule) (a : ι) (args : SendArgs)
    (mode : Mode) : Prop where
  started : Starts (run a) (.send args)
  taken : Taken args.id.text (world U m run a)
  stated : ∃ t ∈ (bridge U false).trace (.idle (.new (m a))) (run a),
    ∃ t' ∈ (bridge U false).trace (.idle (.new (m a))) (run a), ∃ config,
      t'.pre.store.keys.config = some config ∧
      permissionClass t.pre.machine config.codexHome config.thread = .ok mode

variable (hdecoded : ∀ a peer f, Starts (run a) (.accept peer f) →
  ∃ raw expected, decodeFrame U raw expected = some f) (ho : Orderly U mesh m run)

include hdecoded ho in
/-- What is decoded from the writes of a session, it has sent. -/
lemma speaks_origin {a : ι} {mid body : Str} {mode : Mode} {hops : List Str}
    (h : Speaks U (world U m run a) (.message mid body mode hops)) :
    ∃ args, args.id.text = mid ∧ body = rstrip args.body ∧ Origin U m run a args mode := by
  obtain ⟨e,he,chunks,lines,rest,line,expected,hp,hfeed,hmem,hdec⟩ := h
  obtain ⟨st,hst,hlabel⟩ := written_by (m a) he
  have hlog := hst
  rw [← System.log_steps] at hlog
  obtain ⟨r,hr,rfl⟩ := List.mem_map.mp hlog
  have hsourced := log_sourced U false _ (run a) r hr
  unfold Sourced at hsourced
  rw [hlabel] at hsourced
  obtain hout | ⟨i,hi,hprepared,w,hw⟩ := hsourced
  · cases hout
  · obtain ⟨config,v,peer,row,found,target,⟨vc,hvc,hconfig⟩,hv,⟨vo,hvo,hrow⟩,hid,hfound,hout⟩ :=
      hprepared
    have hbefore : ∀ t ∈ r.before, t ∈ (bridge U false).trace (.idle (.new (m a))) (run a) :=
      fun t ht => System.before_mem hr hi ht
    -- the row, and the message that it has been queued for
    have hmemrow := (Table.select_mem.mp (List.mem_of_head? hrow)).1
    obtain ⟨args,hargs,hargsid,hbody⟩ := bodies (m a) (run a) _ (hbefore _ hvo) row.id row
      (Table.find_of_mem hmemrow)
    have hvalid : ∀ h ∈ found, isHop h = true := by
      obtain rfl | ⟨vi,key,known,hvi,hknown,rfl⟩ := hfound
      · simp
      · obtain ⟨body',mode',hacc⟩ := ((ho.run_kept a).2 _ (hbefore _ hvi)).1.stored key known hknown
        obtain ⟨raw,expected',hraw⟩ := hdecoded a _ _ hacc
        exact decodeFrame_isHop hraw
    obtain ⟨s⟩ := outbound_sent hout
    rw [← hid,← hargsid,← hbody] at s
    have hf := s.carried_message hp hfeed hmem hvalid hdec
    cases hf
    refine ⟨args,rfl,rfl,hargs,?_,⟨_,hbefore _ hv,_,hbefore _ hvc,config,hconfig,s.mode_eq⟩⟩
    rw [hargsid,hid]
    exact taken_of_marked (hbefore _ hw) rfl

/-- A run keeps every message as its process has accepted it. -/
lemma stored_accepted {a : ι} {key : Str × Str} {row : MessageRow} (ho : Orderly U mesh m run)
    (hrow : (world U m run a).store.messages.find key = some row) :
    Starts (run a) (.accept key.1 (.message key.2 row.body row.senderMode row.hops)) := by
  refine (System.trace_invariant (P := fun w : World => ∀ key row,
    w.store.messages.find key = some row →
      Starts (run a) (.accept key.1 (.message key.2 row.body row.senderMode row.hops)))
    ?_ ?_).2 key row hrow
  · intro key row h
    cases h
  · intro t ht hold key row h
    obtain ⟨r,hr,hcontent⟩ | hlabel := accepted_step h
    · have hbody : r.body = row.body := congrArg (·.1) hcontent
      have hmode : r.senderMode = row.senderMode := congrArg (·.2.1) hcontent
      have hhops : r.hops = row.hops := congrArg (·.2.2.1) hcontent
      rw [← hbody,← hmode,← hhops]
      exact hold key r hr
    · obtain ⟨-,hg | hout⟩ := (ho.run_kept a).2 t ht
      · rw [hlabel] at hg
        exact hg
      · rw [hlabel] at hout
        cases hout

/-- If links attribute frames to the sessions that wrote them, as in every `MeshRun`, then a message that
is stored under the key of a session is one that such a session has sent: it is the text that `send` got,
under the id that it gave it, with the permission class that the sender's thread had, and its row is no
longer pending there. -/
theorem stored_genuine [DecidableEq ι] (hrun : MeshRun U mesh m run)
    (hdecoded : ∀ a peer f, Starts (run a) (.accept peer f) →
      ∃ raw expected, decodeFrame U raw expected = some f) {a b : ι} {mid : Str} {row : MessageRow}
    (hrow : (world U m run b).store.messages.find ((mesh a).key,mid) = some row) :
    ∃ c args, (mesh c).key = (mesh a).key ∧ args.id.text = mid ∧ row.body = rstrip args.body ∧
      Origin U m run c args row.senderMode := by
  have ho := hrun.orderly
  have haccepted := stored_accepted ho hrow
  obtain ⟨c,hkey,hspeaks⟩ := ho.spoken b _ _ haccepted ⟨a,rfl⟩
  obtain ⟨args,hid,hbody,horigin⟩ := speaks_origin hdecoded ho hspeaks
  exact ⟨c,args,hkey,hid,hbody,horigin⟩

lemma talk_decoded : ∀ a peer f, Starts (talk a) (.accept peer f) →
    ∃ raw expected, decodeFrame .ascii raw expected = some f := by
  intro a peer f h
  have hmember : Member pairMesh peer := by
    cases a
    · simp only [talk,pairRun,asking,starts_append,starts_begins,starts_steps,linking,reduceCtorEq,
        false_or,or_false,Process.accept.injEq] at h
      exact ⟨true,h.1⟩
    · simp only [talk,pairRun,answering,starts_append,starts_begins,starts_steps,linking,
        reduceCtorEq,or_false,Process.accept.injEq] at h
      exact ⟨false,h.1⟩
  obtain ⟨c,-,e,-,chunks,lines,rest,line,expected,-,-,-,hdec⟩ :=
    talk_run.orderly.spoken a peer f h hmember
  exact ⟨line,expected,hdec⟩

/-- The reply of the second session, in the inbox of the first. -/
theorem stored_genuine_pair : ∃ row c args,
    (world .ascii (fun _ => pairMachine) talk false).store.messages.find
      ((pairMesh true).key,replySend.id.text) = some row ∧
    (pairMesh c).key = (pairMesh true).key ∧ args.id.text = replySend.id.text ∧
    row.body = rstrip args.body ∧ Origin .ascii (fun _ => pairMachine) talk c args row.senderMode := by
  have hstored : ((world .ascii (fun _ => pairMachine) talk false).store.messages.find
      ((pairMesh true).key,replySend.id.text)).isSome = true := by decide +kernel
  obtain ⟨row,hrow⟩ := Option.isSome_iff_exists.mp hstored
  obtain ⟨c,args,hgenuine⟩ := stored_genuine talk_run talk_decoded hrow
  exact ⟨row,c,args,hrow,hgenuine⟩

end PeerChat.Mesh
