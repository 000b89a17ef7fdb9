import PeerChat.Interleaving.Only
import PeerChat.Notify.Once
import PeerChat.Peers.Hints
import PeerChat.Python.JsonAscii
import PeerChat.Wire.Admission
import PeerChat.Wire.Carried

/-! What becomes of an advisory at the other end: a notice of the same state, or nothing. It is never
taken for a message, so advisories do not cause advisories. -/
namespace PeerChat.Notify
open Python Wire Interleaving

/-- The notice that `decode_frame` makes of the items, if the interpreter reads the counter. -/
def AdvisoryData.notice (U : Interp) (d : AdvisoryData) : Option Frame :=
  match d.state with
  | some state =>
    if state.length ≤ 80 ∧ d.warning.length ≤ 1000 ∧ d.remaining.all (U.reads ·.toJson) then
      some (.notice state d.warning d.remaining)
    else none
  | none => none

/-- The address under which a bridge sends. -/
abbrev address (config : Config) : Str := str "uds:" ++ config.socket

/-- What a bridge that expects frames from `expected` receives. -/
def Advisory.received (U : Interp) (config : Config) (expected : Str) (a : Advisory) :
    Option Frame :=
  match a.body with
  | .message _ => none
  | .frame _ => if expected = address config then a.data.notice U else none

/-- The bytes that an attempt hands to `sendall`. -/
inductive Advisory.Transmits (config : Config) (a : Advisory) : Bytes → Prop
  | message {text : Str} {U : Interp} {m : Machine} {peer : PeerRecord} {mid : Str}
      {endpoint : Endpoint} {data : Bytes} (hbody : a.body = .message text)
      (hsend : outbound U m config peer text mid [] true = .ok (endpoint,data)) :
      Transmits config a data
  | frame {value : Json} {data : Bytes} (hbody : a.body = .frame value)
      (hsend : Utf8.encode (Json.dumpsAscii value ++ [ofChar '\n']) = some data) :
      Transmits config a data

/-! Control frames. -/

lemma plain_idsJson (ids : List Str) : Json.plain (idsJson ids) = true := by
  unfold idsJson Json.plain
  induction ids with
  | nil => rfl
  | cons mid ids ih => simp [Json.plainItems,Json.plain,ih]

lemma plain_controlFrame (config : Config) (d : AdvisoryData) :
    Json.plain (controlFrame config d) = true := by
  have hstate : Json.plain (optionJson d.state) = true := by
    cases d.state <;> rfl
  have hremaining : Json.plain ((d.remaining.map Budget.toJson).getD .null) = true := by
    cases d.remaining with
    | none => rfl
    | some b => cases b <;> rfl
  unfold controlFrame Json.plain
  rw [Json.plainPairs_iff]
  intro p hp
  simp only [AdvisoryData.pairs,List.mem_append,List.mem_cons,List.not_mem_nil,or_false] at hp
  obtain (rfl | rfl | rfl) | (rfl | rfl | rfl | rfl | rfl) | hheld := hp
  · rfl
  · rfl
  · rfl
  · exact hstate
  · exact hremaining
  · rfl
  · exact plain_idsJson _
  · rfl
  · split_ifs at hheld
    · cases hheld
    · rw [List.mem_singleton.mp hheld]
      exact plain_idsJson _

/-- What a key of the frame holds does not depend on the last item. -/
lemma controlFrame_eq (config : Config) (d : AdvisoryData) : ∃ held,
    (held = [] ∨ ∃ ids, held = [(str "held_message_ids",idsJson ids)]) ∧
    controlFrame config d = .obj ([(str "type",.str (str "control")),
      (str "action",.str (str "peer_chat_notice")),(str "from",.str (address config)),
      (str "state",optionJson d.state),(str "remaining",(d.remaining.map Budget.toJson).getD .null),
      (str "message_id",.str d.messageId),(str "message_ids",idsJson d.messageIds),
      (str "warning",.str d.warning)] ++ held) := by
  by_cases hheld : d.heldIds = []
  · refine ⟨[],Or.inl rfl,?_⟩
    simp [controlFrame,AdvisoryData.pairs,hheld]
  · refine ⟨[(str "held_message_ids",idsJson d.heldIds)],Or.inr ⟨_,rfl⟩,?_⟩
    simp [controlFrame,AdvisoryData.pairs,hheld]

/-- What `decode_frame` looks up in the frame. -/
lemma controlFrame_get (config : Config) (d : AdvisoryData) :
    strAt "from" (controlFrame config d) = some (address config) ∧
    strAt "type" (controlFrame config d) = some (str "control") ∧
    strAt "action" (controlFrame config d) = some (str "peer_chat_notice") ∧
    strAt "state" (controlFrame config d) = d.state ∧
    strAt "warning" (controlFrame config d) = some d.warning ∧
    counterAt (controlFrame config d) = some d.remaining := by
  obtain ⟨held,hheld,heq⟩ := controlFrame_eq config d
  have hstate : (optionJson d.state).str? = d.state := by
    cases d.state <;> rfl
  have hremaining : ∀ frame : Json,
      frame.get (str "remaining") = some ((d.remaining.map Budget.toJson).getD .null) →
      counterAt frame = some d.remaining := by
    intro frame hframe
    rw [counterAt,hframe]
    cases d.remaining with
    | none => rfl
    | some b => cases b <;> rfl
  rw [heq]
  obtain rfl | ⟨ids,rfl⟩ := hheld
  · exact ⟨rfl,rfl,rfl,hstate,rfl,hremaining _ rfl⟩
  · exact ⟨rfl,rfl,rfl,hstate,rfl,hremaining _ rfl⟩

lemma depth_idsJson (ids : List Str) : (idsJson ids).depth ≤ 1 := by
  have hitems : Json.depthItems (ids.map Json.str) ≤ 0 := by
    rw [Json.depthItems_le_iff]
    intro x hx
    obtain ⟨_,-,rfl⟩ := List.mem_map.mp hx
    rfl
  exact Nat.succ_le_succ hitems

lemma withinDigits_idsJson (k : ℕ) (ids : List Str) : (idsJson ids).withinDigits k = true := by
  change Json.withinDigitsItems k _ = true
  rw [Json.withinDigitsItems_iff]
  intro x hx
  obtain ⟨_,-,rfl⟩ := List.mem_map.mp hx
  rfl

/-- Whether an interpreter reads the frame depends on the counter alone. -/
lemma reads_controlFrame (U : Interp) (config : Config) (d : AdvisoryData) :
    U.reads (controlFrame config d) = d.remaining.all (U.reads ·.toJson) := by
  have hdepth := U.enough_depth
  have hstate : (optionJson d.state).depth = 0 ∧
      (optionJson d.state).withinDigits U.maxDigits = true := by
    cases d.state <;> exact ⟨rfl,rfl⟩
  have hremaining : ((d.remaining.map Budget.toJson).getD .null).depth = 0 ∧
      ((d.remaining.map Budget.toJson).getD .null).withinDigits U.maxDigits =
        d.remaining.all (U.reads ·.toJson) := by
    cases d.remaining with
    | none => exact ⟨rfl,rfl⟩
    | some b =>
      cases b with
      | unlimited => exact ⟨rfl,by simp [Interp.reads,Budget.toJson,Json.depth,Json.withinDigits]⟩
      | count n => exact ⟨rfl,by simp [Interp.reads,Budget.toJson,Json.depth]⟩
  have hids := depth_idsJson d.messageIds
  have hdigits := withinDigits_idsJson U.maxDigits
  obtain ⟨held,hheld,heq⟩ := controlFrame_eq config d
  rw [heq,Interp.reads]
  obtain rfl | ⟨ids,rfl⟩ := hheld
  · simp only [List.append_nil,Json.depth,Json.depthPairs,Json.withinDigits,
      Json.withinDigitsPairs,hstate,hremaining,hdigits,Bool.true_and,Bool.and_true]
    rw [decide_eq_true (by omega),Bool.true_and]
  · have hheld := depth_idsJson ids
    simp only [List.cons_append,List.nil_append,Json.depth,Json.depthPairs,Json.withinDigits,
      Json.withinDigitsPairs,hstate,hremaining,hdigits,Bool.true_and,Bool.and_true]
    rw [decide_eq_true (by omega),Bool.true_and]

/-- A control frame within the limit is decoded to the notice, and for its own sender only. -/
lemma decodeFrame_controlFrame (U : Interp) {config : Config} {d : AdvisoryData} {line : Bytes}
    (hscalar : Json.ScalarTexts (controlFrame config d)) (hlen : line.length ≤ MAX_LINE)
    (hline : Utf8.encode (Json.dumpsAscii (controlFrame config d)) = some line) (expected : Str) :
    decodeFrame U line expected = if expected = address config then d.notice U else none := by
  obtain ⟨hfrom,htype,haction,hstate,hwarning,hremaining⟩ := controlFrame_get config d
  have hloads : Json.loads line = some (controlFrame config d) := by
    have htext : ∃ t, Json.dumpsAscii (controlFrame config d) = Json.chr 123 :: Json.quote :: t := by
      obtain ⟨held,-,heq⟩ := controlFrame_eq config d
      rw [Json.dumpsAscii,heq]
      exact ⟨_,rfl⟩
    obtain ⟨t,ht⟩ := htext
    rw [Json.loads_encode hline ht (by decide) (by decide)]
    exact Json.loadsStr_dumpsAscii (plain_controlFrame config d) hscalar
  have hreads := reads_controlFrame U config d
  by_cases hcounter : d.remaining.all (U.reads ·.toJson) = true
  · rw [decodeFrame,if_neg (by omega),Interp.loads_eq hloads (hreads.trans hcounter)]
    simp only [Option.bind_eq_bind,Option.bind_some,hfrom,htype,haction,ne_eq,Option.some.injEq,
      and_self,if_true]
    by_cases he : expected = address config
    · rw [if_neg (by simp [he]),if_pos he]
      simp only [decodeNotice,hstate,hwarning,hremaining,AdvisoryData.notice,Option.bind_eq_bind,
        Option.bind_some,hcounter,and_true]
      cases d.state <;> rfl
    · rw [if_pos (Ne.symm he),if_neg he]
  · have hnone : U.loads line = none := by
      rw [Interp.loads,hloads]
      exact Option.filter_some_neg (hreads.trans (Bool.eq_false_of_not_eq_true hcounter))
    rw [decodeFrame,if_neg (by omega),hnone]
    cases hs : d.state <;> simp [AdvisoryData.notice,hs,hcounter]

/-! Messages. -/

/-- The parts of an advisory that has reached the socket write. -/
lemma outbound_advisory {U : Interp} {m : Machine} {config : Config} {peer : PeerRecord}
    {text mid : Str} {endpoint : Endpoint} {data : Bytes}
    (h : outbound U m config peer text mid [] true = .ok (endpoint,data)) :
    ∃ mode own line, NOTICE <+: text ∧ ownHop config.thread = .ok own ∧ data = line ++ [10] ∧
      10 ∉ line ∧ Utf8.encode (Json.dumps (frameJson mid (envelope (attributes (tagPairs
        (address config) (extendHops peer.kind own []) (str "peer-chat-bridge") mode)) (rstrip text))
        (address config))) = some line := by
  simp only [outbound,bind,Except.bind,throw,throwThe,MonadExceptOf.throw] at h
  split at h
  · contradiction
  split at h
  · contradiction
  split_ifs at h with hbody hadvisory
  cases hm : statedMode m config true with
  | error exc => simp [hm] at h
  | ok mode =>
  cases ho : ownHop config.thread with
  | error exc => simp [hm,ho] at h
  | ok own =>
  simp only [hm,ho] at h
  split_ifs at h with hhops
  split at h
  · contradiction
  rename_i bytes hdata
  split_ifs at h with hlen
  split at h
  · contradiction
  cases h
  obtain ⟨line,nl,hline,hnl,hbytes⟩ := Utf8.encode_append (encodeText_eq hdata)
  have hten : Utf8.encode [ofChar '\n'] = some [10] := by decide
  obtain rfl : nl = [10] := by
    rw [hten] at hnl
    exact (Option.some.inj hnl).symm
  refine ⟨mode,own,line,?_,rfl,hbytes,
    newline_not_mem_encode hline (newline_not_mem_frame _ _ _),hline⟩
  have hstart : startswith text NOTICE = true := by simpa using hadvisory
  exact List.isPrefixOf_iff_prefix.mp hstart

/-- The opening tag of an advisory is well formed, if its address is. -/
lemma advisory_tag {config : Config} {kind : Option PeerKind} {own : Str} (mode : Mode)
    (hown : isHop own = true) (hsocket : ∀ c ∈ config.socket, inValue c = true) (text : Str) :
    let attrs := attributes (tagPairs (address config) (extendHops kind own [])
      (str "peer-chat-bridge") mode)
    matchEnvelope (envelope attrs (rstrip text)) = some (attrs,rstrip text) := by
  have ha : ∀ c ∈ address config, inValue c = true := by
    intro c hc
    obtain h | h := List.mem_append.mp hc
    · exact all_str "uds:" (by decide +kernel) c h
    · exact hsocket c h
  have hname : ∀ c ∈ str "peer-chat-bridge", inValue c = true :=
    all_str "peer-chat-bridge" (by decide +kernel)
  have hchain : ∀ h ∈ extendHops kind own [], isHop h = true :=
    extendHops_isHop kind hown (by simp)
  refine matchEnvelope_envelope _ ?_ (attributes_inTag (tagPairs_wellFormed mode ha hname hchain))
  intro hnil
  rw [tagPairs,attributes_cons] at hnil
  exact attrText_ne_nil _ (List.append_eq_nil_iff.mp hnil).1

/-- An advisory is never decoded. -/
lemma decodeFrame_advisory {U' : Interp} {config : Config} {kind : Option PeerKind}
    {own text mid : Str} {mode : Mode} {line : Bytes} (hnotice : NOTICE <+: text)
    (hown : isHop own = true)
    (hline : Utf8.encode (Json.dumps (frameJson mid (envelope (attributes (tagPairs
      (address config) (extendHops kind own []) (str "peer-chat-bridge") mode)) (rstrip text))
      (address config))) = some line) (expected : Str) : decodeFrame U' line expected = none := by
  cases hf : decodeFrame U' line expected with
  | none => rfl
  | some f =>
    exfalso
    have htag := fun h => @advisory_tag config kind own mode hown h text
    set content := envelope (attributes (tagPairs (address config) (extendHops kind own [])
      (str "peer-chat-bridge") mode)) (rstrip text)
    have hload : U'.loads line = some (frameJson mid content (address config)) :=
      Interp.loads_eq (Json.loads_encode_dumps rfl hline (a := Json.chr 123) (b := Json.quote) rfl
        (by decide) (by decide)) (reads_frameJson U' _ _ _)
    have hfrom : strAt "from" (frameJson mid content (address config)) = some (address config) := rfl
    have htype : strAt "type" (frameJson mid content (address config)) = some (str "user") := rfl
    have hid : strAt "msg_id" (frameJson mid content (address config)) = some mid := rfl
    have hmessage : (frameJson mid content (address config)).get (str "message") =
        some (.obj [(str "role",.str (str "user")),(str "content",.str content)]) := rfl
    have hcontent : strAt "content" (.obj [(str "role",.str (str "user")),
        (str "content",.str content)]) = some content := rfl
    have hctl : ¬ (some (str "user") = some (str "control")) := by decide
    unfold decodeFrame at hf
    split_ifs at hf
    rw [hload] at hf
    simp only [Option.bind_eq_bind,Option.bind_some,hfrom,htype,hid,hmessage,hcontent,hctl,ne_eq,
      Option.some.injEq,false_and,if_false,not_true_eq_false] at hf
    split_ifs at hf with he hvalid
    swap
    · obtain ⟨_,-,hnone⟩ := Option.bind_eq_some_iff.mp hf
      cases hnone
    obtain ⟨⟨attrs,body⟩,henv,hf⟩ := Option.bind_eq_some_iff.mp hf
    obtain ⟨pairs,found,hops,hderives,-⟩ := derives_of_decodeMessage henv hf
    -- the address is a value of the tag that has been read
    have hsocket : ∀ c ∈ config.socket, inValue c = true := by
      intro c hc
      obtain ⟨before,rest,rfl,-⟩ := List.lookup_eq_some_iff.mp hderives.sender
      refine (hderives.wellFormed (str "from",expected) (by simp)).2.2 c ?_
      rw [← he]
      exact List.mem_append_right _ hc
    rw [htag hsocket] at henv
    obtain ⟨-,rfl⟩ := Prod.mk.inj (Option.some.inj henv)
    exact hderives.no_notice (notice_rstrip hnotice)

/-! The attempts of a run. -/

/-- An advisory as a pass under this configuration makes it. -/
def Advisory.Made (config : Config) (a : Advisory) : Prop :=
  ∃ current key peer d, a = advisoryFor config current key peer d

def NotifyOp.Advises (config : Config) : NotifyOp → Prop
  | .advise a => a.Made config
  | _ => True

section
variable {U : Interp} {second : Time}

lemma look_bind_emits {β γ : Type} {P : NotifyOp → Prop} (hlook : P .look) {f : Post → β}
    {g : β → NotifyCode γ} (hg : ∀ b, (g b).Emits P) : (look f >>= g).Emits P :=
  ⟨hlook,fun s => hg (f s)⟩

lemma unwarned_emits {config : Config} (key : Str) (rows : List MessageRow) :
    (unwarned key rows).Emits (NotifyOp.Advises config) := by
  induction rows with
  | nil => trivial
  | cons row rows ih =>
    refine look_bind_emits trivial fun warned => ih.bind fun rest => ?_
    cases warned <;> trivial

lemma markAll_emits {config : Config} (key : Str) (mark : Str → Mark) (mids : List Str) :
    (markAll key mark mids).Emits (NotifyOp.Advises config) := by
  induction mids with
  | nil => trivial
  | cons mid mids ih => exact ⟨trivial,fun _ => ih⟩

lemma advise_emits (p : Pass) (key : Str) (peer : PeerRecord) (prior : Option NoticeRecord)
    (rows : List MessageRow) :
    (advise U p key peer prior rows).Emits (NotifyOp.Advises p.config) := by
  cases rows with
  | nil => trivial
  | cons row rows =>
    refine ⟨trivial,fun _ => (markAll_emits ..).bind fun _ => ⟨⟨_,_,_,_,rfl⟩,fun s => ?_⟩⟩
    simp only [Prog.bind]
    split
    · exact ⟨trivial,fun _ => trivial⟩
    · split_ifs
      · exact ⟨trivial,fun _ => trivial⟩
      · trivial

lemma notifyPeers_emits (p : Pass) (peers : List (Str × PeerRecord)) :
    (notifyPeers U second p peers).Emits (NotifyOp.Advises p.config) := by
  induction peers with
  | nil => trivial
  | cons x rest ih =>
    have hpeer : (notifyPeer U second p x.1 x.2).Emits (NotifyOp.Advises p.config) :=
      look_bind_emits trivial fun _ => look_bind_emits trivial fun _ =>
        (unwarned_emits ..).bind fun _ => advise_emits ..
    refine hpeer.bind fun goesOn => ?_
    split_ifs
    · exact ih
    · trivial

lemma notify_emits (config : Config) (pid : Pid) :
    (notify U second config pid).Emits (NotifyOp.Advises config) := by
  refine look_bind_emits trivial fun runtime => ?_
  split_ifs
  · trivial
  · exact look_bind_emits trivial fun current => look_bind_emits trivial fun recovery =>
      look_bind_emits trivial fun now => look_bind_emits trivial fun peers =>
        notifyPeers_emits ⟨config,current,recovery,now⟩ peers

end

/-- An attempt has been made by a step. -/
lemma attempts_after {a : Advisory} {s : Post} {ls : List NotifyOp}
    (h : a ∈ (after s ls).attempts) : a ∈ s.attempts ∨ .advise a ∈ ls := by
  induction ls generalizing s with
  | nil => exact Or.inl h
  | cons l ls ih =>
    obtain h | h := ih h
    · cases l with
      | advise b =>
        obtain h | h := List.mem_append.mp h
        · exact Or.inl h
        · rw [List.mem_singleton.mp h]
          exact Or.inr (List.mem_cons_self ..)
      | _ => exact Or.inl h
    · exact Or.inr (List.mem_cons_of_mem _ h)

/-- Every attempt of a run is one that a pass of the run has made under its configuration. -/
lemma attempts_made (U : Interp) (second : Time) {s : Post} (hs : s.attempts = [])
    (es : List (Event PassTask NotifyOp)) {a : Advisory}
    (ha : a ∈ ((notifier U second).final (.idle s) es).state.attempts) :
    ∃ i task, .start i task ∈ es ∧ a.Made task.config := by
  obtain ⟨ls,htrace,hfinal⟩ := (notifier U second).exists_labels (.idle s) es
  have htrace' : (notifier U second).trace (.idle s) es = stepsOf s ls := htrace
  rw [hfinal] at ha
  have hadvise : .advise a ∈ ls := by
    obtain h | h := attempts_after ha
    · change a ∈ s.attempts at h
      rw [hs] at h
      cases h
    · exact h
  obtain ⟨t,ht,hlabel⟩ : ∃ t ∈ (notifier U second).trace (.idle s) es, t.label = .advise a := by
    rw [← stepsOf_labels s ls,← htrace'] at hadvise
    exact List.mem_map.mp hadvise
  have hcode : ∀ task, Sat (fun _ => True) (fun _ _ => True)
      (fun _ => NotifyOp.Advises task.config) (fun _ => True) ((notifier U second).code task)
      fun _ _ => True :=
    fun task => Sat.of_emits (notify_emits task.config task.pid) fun _ _ _ h => h
  obtain ⟨i,task,hstart,hmade⟩ | hout := System.trace_started hcode s es t ht
  · rw [hlabel] at hmade
    exact ⟨i,task,hstart,hmade⟩
  · rw [hlabel] at hout
    cases hout

/-- In every run of passes that may end anywhere, while everything else changes: whoever reads any part
of the bytes of an advisory, in any pieces, finds in it the notice with the state, the warning and the
remaining allowance that the pass has seen, or nothing. Only a frame from the sender's own address is
accepted, only with a state and a warning that are not too long and a counter that the reader's
interpreter reads, and nothing is ever taken for a message. The texts of a frame are those without lone
surrogates: an escaped pair of them is read back as one character. -/
theorem advisories_understood (U : Interp) (second : Time) (world : World) (snapshot : Snapshot)
    (recovery : Option (Option Str)) (fresh : Str) (notices : List (Str × NoticeRecord))
    (marks : List (Str × Mark)) (es : List (Event PassTask NotifyOp)) {a : Advisory}
    (ha : a ∈ ((notifier U second).final
      (.idle ⟨world,snapshot,recovery,fresh,notices,marks,[]⟩) es).state.attempts)
    (hscalar : ∀ value, a.body = .frame value → Json.ScalarTexts value) :
    ∃ i task, .start i task ∈ es ∧ ∀ data, a.Transmits task.config data →
      ∀ (U' : Interp) (chunks lines : List Bytes) (rest line : Bytes) (expected : Str),
        chunks.flatten <+: data → feedAll [] chunks = some (lines,rest) → line ∈ lines →
        decodeFrame U' line expected = a.received U' task.config expected := by
  obtain ⟨i,task,hstart,current,key,peer,d,rfl⟩ := attempts_made U second rfl es ha
  refine ⟨i,task,hstart,?_⟩
  intro data hsent U' chunks lines rest line expected hpart hfeed hline
  cases hsent with
  | message hbody hsend =>
    obtain ⟨mode,own,whole,hnotice,hown,rfl,hnl,hwhole⟩ := outbound_advisory hsend
    obtain rfl := lines_of_prefix hnl hpart hfeed line hline
    rw [decodeFrame_advisory hnotice (ownHop_isHop hown) hwhole expected]
    unfold Advisory.received
    rw [hbody]
  | @frame value _ hbody hsend =>
    have hvalue : value = controlFrame task.config d := by
      unfold advisoryFor at hbody
      dsimp only at hbody
      split_ifs at hbody
      exact (AdvisoryBody.frame.inj hbody).symm
    have hs := hscalar value hbody
    subst hvalue
    obtain ⟨whole,nl,hwhole,hnl,rfl⟩ := Utf8.encode_append hsend
    have hten : Utf8.encode [ofChar '\n'] = some [10] := by decide
    obtain rfl : nl = [10] := by
      rw [hten] at hnl
      exact (Option.some.inj hnl).symm
    have hten_not_mem : 10 ∉ whole := newline_not_mem_encode hwhole
      (Json.newline_not_mem_dumpsAscii (plain_controlFrame task.config d))
    obtain rfl := lines_of_prefix hten_not_mem hpart hfeed line hline
    rw [decodeFrame_controlFrame U' hs (feedAll_length_le hfeed line hline) hwhole expected]
    unfold Advisory.received
    rw [hbody]
    rfl

/-- A bridge whose only peer is a Codex session, with one held message. -/
def codexConfig : Config := { sampleConfig with peers := some [(str "codex",codexPeer)] }

def codexRow : MessageRow :=
  ⟨str "codex:141582aa3785bb7d:2f1e3c80-9a5b-4c1d-8e7f-0123456789ab",sampleId.text,str "hi",.bypass,
    [],.held,[],0⟩

def codexWorld : World where
  store :=
    { Store.empty with
      messages := ⟨[codexRow],List.nodup_singleton _⟩
      keys := { runtime := some ⟨7,none,[],1⟩ } }
  wire := []
  machine := { sampleMachine with isAbsolute := fun _ => true }

def codexRun : List (Event PassTask NotifyOp) :=
  .start 0 ⟨codexConfig,7⟩ :: List.replicate 16 (.step 0)

/-- A frame whose notice is this one, and which can be encoded. -/
def frames (f : Frame) (a : Advisory) : Bool :=
  a.data.notice .ascii == some f && match a.body with
    | .message _ => false
    | .frame value => (Json.dumps value).all fun c => !isSurrogate c

lemma codexRun_attempts :
    (((notifier .ascii 1).final
      (.idle ⟨codexWorld,{},none,[],[],[],[]⟩) codexRun).state.attempts.map
        (frames (.notice (str "held") HELD_WARNING none))) = [true] := by
  decide +kernel

theorem advisories_understood_codex :
    ∃ a ∈ ((notifier .ascii 1).final
        (.idle ⟨codexWorld,{},none,[],[],[],[]⟩) codexRun).state.attempts,
      a.data.notice .ascii = some (.notice (str "held") HELD_WARNING none) ∧
      ∃ i task, .start i task ∈ codexRun ∧ ∀ data, a.Transmits task.config data →
        ∀ (U' : Interp) (chunks lines : List Bytes) (rest line : Bytes) (expected : Str),
          chunks.flatten <+: data → feedAll [] chunks = some (lines,rest) → line ∈ lines →
          decodeFrame U' line expected = a.received U' task.config expected := by
  have hmap := codexRun_attempts
  obtain ⟨a,l,hal,hframes,-⟩ := List.map_eq_cons_iff.mp hmap
  have ha : a ∈ ((notifier .ascii 1).final
      (.idle ⟨codexWorld,{},none,[],[],[],[]⟩) codexRun).state.attempts := by
    rw [hal]
    exact List.mem_cons_self ..
  obtain ⟨hnotice,hbody⟩ := Bool.and_eq_true_iff.mp hframes
  refine ⟨a,ha,beq_iff_eq.mp hnotice,?_⟩
  refine advisories_understood .ascii 1 codexWorld {} none [] [] [] codexRun ha ?_
  intro value hvalue c hc
  rw [hvalue] at hbody
  simpa using List.all_eq_true.mp hbody c hc

end PeerChat.Notify
