import PeerChat.Hooks.Deliver
import PeerChat.Hooks.Payload
import PeerChat.Wire.Grammar
import PeerChat.Wire.Plain

/-! What becomes of a decoded frame's texts: they are bound to SQL statements when the frame is
stored, and printed when a hook returns it. Both need a UTF-8 form, and the decoder does not ask
for one: an escape of an unpaired surrogate passes it. -/
namespace PeerChat
open Python Wire

/-- The texts of the dictionary that `decode_frame` returns. -/
def Wire.Frame.texts : Frame → List Str
  | .notice state warning remaining => [str "notice",state,warning] ++
      (if remaining = some .unlimited then [str "unlimited"] else [])
  | .receipt mid body => [mid,str "receipt",body.text]
  | .message mid body mode hops => [mid,str "message",body,mode.text] ++ hops

/-- The texts that `accept` binds. Notices are bound as JSON text in ASCII. -/
def boundTexts (peer : Str) : Frame → List Str
  | .notice _ _ _ => []
  | .receipt mid body => [peer,mid,body.text]
  | .message mid body mode hops => [peer,mid,str "message",body,mode.text,
      Json.dumps (.arr (hops.map .str)),str "received"]

/-- The result of a hook that has something to say. -/
def hookResult (event : HookEvent) (context : Str) : Json :=
  .obj [(str "hookSpecificOutput",
    .obj [(str "hookEventName",.str event.text),(str "additionalContext",.str context)])]

/-- `print(json.dumps(result, ensure_ascii=False))` to a UTF-8 stream, none for its
UnicodeEncodeError. -/
def printResult (result : Json) : Option Bytes := Utf8.encode (Json.dumps result ++ [ofChar '\n'])

/-- What a stored frame adds to a context. -/
def contribution (m : Machine) (config : Config) (peer : Str) : Frame → Except Exc Str
  | .notice state warning remaining =>
    .ok (noticesText m [(peer,⟨m.now,state,remaining,warning⟩)])
  | .receipt _ _ => .ok []
  | .message mid body mode hops =>
    hookText m config ⟨peer,mid,body,mode,hops,.received,[],m.now⟩

/-- The texts of a line that the decoder takes over as they are: the state and the warning of a
notice, and a message's content from the end of its opening tag on. -/
def uncheckedTexts (raw : Bytes) : List Str :=
  match Json.loads raw with
  | none => []
  | some frame =>
    if strAt "type" frame = some (str "control") then
      [(strAt "state" frame).getD [],(strAt "warning" frame).getD []]
    else
      [(((frame.get (str "message")).bind (strAt "content")).getD []).dropWhile (· ≠ ofChar '\n')]

@[simp] lemma scalar_receiptText (body : Receipt) : Scalar body.text := by
  cases body <;> exact scalar_str _

/-! The texts that the decoder takes over. -/

/-- The first newline of an envelope is the one after its opening tag. -/
lemma dropWhile_envelope {attrs body : Str} (h : ∀ c ∈ attrs, inTag c = true) :
    (envelope attrs body).dropWhile (· ≠ ofChar '\n') = ofChar '\n' :: (body ++ closeTag) := by
  have hopen : ∀ c ∈ openTag ++ attrs ++ [ofChar '>'], decide (c ≠ ofChar '\n') = true := by
    intro c hc
    rw [decide_eq_true_eq]
    rintro rfl
    simp only [List.mem_append,List.mem_singleton] at hc
    rcases hc with (hc | hc) | hc
    · exact absurd hc (by decide +kernel)
    · have := h _ hc
      contradiction
    · contradiction
  have hsplit : envelope attrs body =
      (openTag ++ attrs ++ [ofChar '>']) ++ ofChar '\n' :: (body ++ closeTag) := by
    simp [envelope,str]
  rw [hsplit,List.dropWhile_append_of_pos hopen]
  exact List.dropWhile_cons_of_neg (by simp)

lemma scalar_rest {attrs body : Str} (h : ∀ c ∈ attrs, inTag c = true) :
    Scalar ((envelope attrs body).dropWhile (· ≠ ofChar '\n')) ↔ Scalar body := by
  have hn : isSurrogate (ofChar '\n') = false := by decide
  have hclose : Scalar closeTag := scalar_str _
  rw [dropWhile_envelope h]
  simp [hn,hclose]

/-- What a decoded notice is made of. -/
lemma decodeNotice_some {frame : Json} {f : Frame} (h : decodeNotice frame = some f) :
    ∃ state warning remaining, strAt "state" frame = some state ∧
      strAt "warning" frame = some warning ∧ f = .notice state warning remaining := by
  simp only [decodeNotice,Option.bind_eq_bind,Option.bind_eq_some_iff] at h
  obtain ⟨state,hstate,warning,hwarning,remaining,-,h⟩ := h
  split_ifs at h
  cases h
  exact ⟨state,warning,remaining,hstate,hwarning,rfl⟩

lemma decodeReceipt_some {frame : Json} {f : Frame} (h : decodeReceipt frame = some f) :
    ∃ mid body, f = .receipt mid body := by
  simp only [decodeReceipt,Option.bind_eq_bind,Option.bind_eq_some_iff] at h
  obtain ⟨mid,-,body,-,h⟩ := h
  split_ifs at h
  cases h
  exact ⟨mid,body,rfl⟩

/-- What the decoder returns, by kind, with the texts that it did not check. -/
lemma decodeFrame_cases {U : Interp} {raw : Bytes} {expected : Str} {f : Frame}
    (h : decodeFrame U raw expected = some f) :
    (∃ mid body, f = .receipt mid body) ∨
    (∃ state warning remaining, f = .notice state warning remaining ∧
      uncheckedTexts raw = [state,warning]) ∨
    ∃ mid body mode hops rest, f = .message mid body mode hops ∧ uncheckedTexts raw = [rest] ∧
      (Scalar rest ↔ Scalar body) ∧ validId mid = true ∧ ∀ x ∈ hops, Scalar x := by
  unfold decodeFrame at h
  split_ifs at h with hlen
  simp only [Option.bind_eq_bind,Option.bind_eq_some_iff] at h
  obtain ⟨frame,hread,h⟩ := h
  have hload := (Interp.loads_eq_some_iff.mp hread).1
  split_ifs at h with hfrom hnotice hreceipt huser
  · obtain ⟨state,warning,remaining,hstate,hwarning,rfl⟩ := decodeNotice_some h
    refine Or.inr (Or.inl ⟨state,warning,remaining,rfl,?_⟩)
    simp only [uncheckedTexts,hload,hnotice.1,if_true,hstate,hwarning,Option.getD_some]
  · exact Or.inl (decodeReceipt_some h)
  · simp only [Option.bind_eq_some_iff] at h
    obtain ⟨mid,-,message,hmessage,content,hcontent,⟨attrs,body⟩,henv,h⟩ := h
    split_ifs at h with hvalid
    obtain ⟨pairs,mode,hops,hderives,rfl⟩ := derives_of_decodeMessage henv h
    obtain ⟨rfl,-,hattrs⟩ := matchEnvelope_some henv
    have huser' : strAt "type" frame = some (str "user") := by simpa using huser
    have hctl : ¬ (some (str "user") = some (str "control")) := by decide
    refine Or.inr (Or.inr ⟨mid,body,mode,hops,_,rfl,?_,scalar_rest hattrs,
      hvalid.1,scalar_of_isHop ?_⟩)
    · simp only [uncheckedTexts,hload,huser',hctl,if_false,hmessage,Option.bind_some,hcontent,
        Option.getD_some]
    · rcases hderives.chain with hc | hc
      · rw [hc.2]
        simp
      · exact hc.2.2.1

/-! Storing and printing. -/

/-- A context made of pieces can be printed exactly if every piece has a UTF-8 form. -/
lemma printResult_isSome_iff (event : HookEvent) (hevent : Scalar event.text) (pieces : List Str) :
    (printResult (hookResult event ((str "\n\n").intercalate pieces))).isSome ↔
      ∀ piece ∈ pieces, Scalar piece := by
  have hn : isSurrogate (ofChar '\n') = false := by decide
  rw [printResult,encode_isSome_iff]
  simp [hookResult,Json.scalar_dumps_obj,hevent,hn,scalar_intercalate (scalar_str "\n\n")]

lemma scalar_boundTexts {peer : Str} {f : Frame} (hpeer : Scalar peer)
    (h : ∀ s ∈ f.texts, Scalar s) : ∀ s ∈ boundTexts peer f, Scalar s := by
  cases f with
  | notice state warning remaining => simp [boundTexts]
  | receipt mid body =>
    have hmid := h mid (by simp [Frame.texts])
    simp [boundTexts,hpeer,hmid]
  | message mid body mode hops =>
    have hmid := h mid (by simp [Frame.texts])
    have hbody := h body (by simp [Frame.texts])
    have hhops : ∀ x ∈ hops, Scalar x := fun x hx => h x (by simp [Frame.texts,hx])
    simpa [boundTexts,hpeer,hmid,hbody,Json.scalar_dumps_arr] using hhops

lemma scalar_hookText {m : Machine} {config : Config} {row : MessageRow} {text : Str}
    (hname : ∀ p, routedPeer m config (some row.peer) = .ok p → Scalar (p.name.getD []))
    (hid : Scalar row.id) (hbody : Scalar row.body) (h : hookText m config row = .ok text) :
    Scalar text := by
  unfold hookText queuedText at h
  cases hp : routedPeer m config (some row.peer) with
  | error exc =>
    rw [hp] at h
    cases h
  | ok p =>
    have hn := hname p hp
    simp only [hp,bind,Except.bind,Except.ok.injEq] at h
    rw [← h]
    split_ifs
    · simp [oversizedText,hid]
    · simp [hn,hid,hbody,Json.scalar_dumps_obj]

lemma scalar_noticesText {m : Machine} {peer : Str} {n : Notice} (hpeer : Scalar peer)
    (htime : Scalar (m.timeRepr n.time)) (hstate : Scalar n.state) (hwarning : Scalar n.warning) :
    Scalar (noticesText m [(peer,n)]) := by
  have hremaining : Scalar (Json.dumps ((n.remaining.map Budget.toJson).getD .null)) := by
    cases n.remaining with
    | none => exact scalar_str _
    | some b => cases b <;> simp [Budget.toJson]
  have hat : Json.dumps (.float (m.timeRepr n.time)) = m.timeRepr n.time := by rw [Json.dumps]
  have hnotice : Scalar NOTICE := scalar_str _
  simp [noticesText,Json.scalar_dumps_obj,Notice.toJson,hpeer,hat,htime,hstate,hwarning,hremaining,
    hnotice]

/-- Whatever else a context is made of, the frame's own part does not keep it from being printed. -/
def Printable (f : Frame) : Prop :=
  ∀ (m : Machine) (config : Config) (peer text : Str) (event : HookEvent) (others : List Str),
    Scalar peer → Scalar (m.timeRepr m.now) → event.active = true →
    (∀ p, routedPeer m config (some peer) = .ok p → Scalar (p.name.getD [])) →
    contribution m config peer f = .ok text → (∀ s ∈ others, Scalar s) →
    ∀ pieces, List.Perm pieces (text::others) →
      (printResult (hookResult event ((str "\n\n").intercalate pieces))).isSome

/-- Whoever sent the frame, its texts can be bound. -/
def Bindable (f : Frame) : Prop :=
  ∀ peer, Scalar peer → ∀ s ∈ boundTexts peer f, (Utf8.encode s).isSome

lemma scalar_contribution {m : Machine} {config : Config} {peer text : Str} {f : Frame}
    (hpeer : Scalar peer) (htime : Scalar (m.timeRepr m.now))
    (hname : ∀ p, routedPeer m config (some peer) = .ok p → Scalar (p.name.getD []))
    (h : ∀ s ∈ f.texts, Scalar s) (ht : contribution m config peer f = .ok text) : Scalar text := by
  cases f with
  | notice state warning remaining =>
    obtain rfl := Except.ok.inj ht
    exact scalar_noticesText hpeer htime (h state (by simp [Frame.texts]))
      (h warning (by simp [Frame.texts]))
  | receipt mid body =>
    obtain rfl := Except.ok.inj ht
    exact scalar_nil
  | message mid body mode hops =>
    exact scalar_hookText hname (h mid (by simp [Frame.texts])) (h body (by simp [Frame.texts])) ht

lemma printable_of_scalar {f : Frame} (h : ∀ s ∈ f.texts, Scalar s) : Printable f := by
  intro m config peer text event others hpeer htime hevent hname ht hothers pieces hperm
  have hscalar : Scalar event.text := by
    cases event with
    | other s => contradiction
    | _ => exact scalar_str _
  rw [printResult_isSome_iff event hscalar]
  intro piece hpiece
  rcases List.mem_cons.mp (hperm.mem_iff.mp hpiece) with rfl | hm
  · exact scalar_contribution hpeer htime hname h ht
  · exact hothers piece hm

lemma bindable_of_scalar {f : Frame} (h : ∀ s ∈ f.texts, Scalar s) : Bindable f := by
  intro peer hpeer s hs
  rw [encode_isSome_iff]
  exact scalar_boundTexts hpeer h s hs

/-- A decoded message or notice has a UTF-8 form throughout, can be stored and can be printed, exactly
if the texts that the decoder takes over unchecked have no unpaired surrogate. -/
theorem decodeFrame_scalar_iff (U : Interp) {raw : Bytes} {expected : Str} {f : Frame}
    (h : decodeFrame U raw expected = some f) (hkind : ∀ mid body, f ≠ .receipt mid body) :
    ((∀ s ∈ f.texts, Scalar s) ∧ Bindable f ∧ Printable f) ↔
      ∀ s ∈ uncheckedTexts raw, Scalar s := by
  have hiff : (∀ s ∈ f.texts, Scalar s) ↔ ∀ s ∈ uncheckedTexts raw, Scalar s := by
    rcases decodeFrame_cases h with ⟨mid,body,rfl⟩ | ⟨state,warning,remaining,rfl,hun⟩ |
      ⟨mid,body,mode,hops,rest,rfl,hun,hrest,hmid,hhops⟩
    · exact absurd rfl (hkind mid body)
    · have hr : ∀ s ∈ (if remaining = some .unlimited then [str "unlimited"] else []),
          Scalar s := by
        split_ifs <;> simp
      rw [hun]
      simp only [Frame.texts,List.forall_mem_append,List.forall_mem_cons,scalar_str,true_and]
      exact ⟨fun hs => hs.1,fun hs => ⟨hs,hr⟩⟩
    · rw [hun]
      simpa [Frame.texts,hrest,scalar_of_validId hmid] using fun _ => hhops
  rw [← hiff]
  exact ⟨fun hs => hs.1,fun hs => ⟨hs,bindable_of_scalar hs,printable_of_scalar hs⟩⟩

/-- A notice and a message from one sender, each with the escape of an unpaired surrogate. -/
def surrogateNotice : Bytes := (str
  "\x7b\"from\": \"uds:x\", \"type\": \"control\", \"action\": \"peer_chat_notice\", \"state\": \"\\ud800\", \"warning\": \"\"\x7d").flatMap
  Utf8.encodeChar

def surrogateMessage : Bytes := (str
  "\x7b\"from\": \"uds:x\", \"type\": \"user\", \"msg_id\": \"77777777-7777-7777-7777-777777777777\", \"message\": \x7b\"role\": \"user\", \"content\": \"<cross-session-message from=\\\"uds:x\\\" from-mode=\\\"bypass\\\">\\n\\ud800\\n</cross-session-message>\"\x7d\x7d").flatMap
  Utf8.encodeChar

def unpaired : Str := [⟨0xD800,by decide⟩]

lemma decodeFrame_literal {U : Interp} {s : String} {l : List Char} (hs : s = String.ofList l)
    {expected : Str} {f : Option Frame}
    (h : decodeFrame U ((l.map ofChar).flatMap Utf8.encodeChar) expected = f) :
    decodeFrame U ((str s).flatMap Utf8.encodeChar) expected = f := by
  rw [hs,str_ofList]
  exact h

set_option maxRecDepth 8000 in
/-- Both are accepted: the message cannot be bound, and the notice, once stored, cannot be printed. -/
theorem surrogate_accepted :
    decodeFrame .ascii surrogateMessage (str "uds:x") = some (.message
      sampleId.text unpaired .bypass []) ∧
    ¬ Scalar unpaired ∧ Utf8.encode unpaired = none ∧
    decodeFrame .ascii surrogateNotice (str "uds:x") = some (.notice unpaired [] none) ∧
    printResult (hookResult .postToolUse
      (noticesText .bare [(str "41:9",⟨0,unpaired,none,[]⟩)])) = none := by
  refine ⟨decodeFrame_literal rfl ?_,by decide,by decide,decodeFrame_literal rfl ?_,?_⟩
  · decide +kernel
  · decide +kernel
  · have hiff := printResult_isSome_iff .postToolUse (scalar_str _)
      [noticesText .bare [(str "41:9",⟨0,unpaired,none,[]⟩)]]
    rw [List.intercalate_singleton] at hiff
    rw [← Option.not_isSome_iff_eq_none,hiff]
    simp [noticesText,Json.scalar_dumps_obj,Notice.toJson,unpaired]
    decide

/-- The line of a message in plain text. -/
def plainMessage : Bytes := (Json.dumps sampleFrame).flatMap Utf8.encodeChar

lemma decodeFrame_plainMessage : decodeFrame .ascii plainMessage (str "uds:x") =
    some (.message sampleId.text (str "hi") .bypass []) := by decide +kernel

theorem decodeFrame_scalar_iff_sample : ∃ f, decodeFrame .ascii plainMessage (str "uds:x") = some f ∧
    (∀ s ∈ f.texts, Scalar s) ∧ Bindable f ∧ Printable f := by
  refine ⟨_,decodeFrame_plainMessage,
    (decodeFrame_scalar_iff .ascii decodeFrame_plainMessage (fun _ _ => by simp)).mpr ?_⟩
  decide +kernel

end PeerChat
