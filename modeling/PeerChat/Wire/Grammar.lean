import PeerChat.Python.JsonLength
import PeerChat.Wire.RoundTrip

/-! The grammar of a message's content, and that the decoder accepts exactly its texts. The decoder
skips what is no attribute, writes the attributes that it has found again, and compares; the grammar
has no skipping. -/
namespace PeerChat.Wire
open Python

/-! The parts, as the grammar has them. -/

/-- The value of the attribute `hop-chain`: absent, empty, or up to 32 hops. -/
def ChainOf (chain : Option Str) (hops : List Str) : Prop :=
  (chain.getD [] = [] ∧ hops = []) ∨
  (1 ≤ hops.length ∧ hops.length ≤ 32 ∧ (∀ h ∈ hops, isHop h = true) ∧
    chain = some (join (ofChar ',') hops))

/-- A content with its attributes, its body, and what the attributes say. -/
structure Derives (U : Interp) (expected content : Str) (pairs : List (Str × Str))
    (body : Str) (mode : Mode) (hops : List Str) : Prop where
  content_eq : content = openTag ++ attributes pairs ++ str ">\n" ++ body ++ closeTag
  pairs_ne : pairs ≠ []
  wellFormed : ∀ kv ∈ pairs, WellFormed kv
  distinct : (pairs.map Prod.fst).Nodup
  sender : pairs.lookup (str "from") = some expected
  mode_eq : pairs.lookup (str "from-mode") = some mode.text
  chain : ChainOf (pairs.lookup (str "hop-chain")) hops
  visible : ∃ c ∈ body, isSpace c = false
  unmarked : nestedMarker U body = false
  no_notice : ¬ NOTICE <+: body

/-! What the two expressions match. -/

lemma after_some {p s rest : Str} (h : after p s = some rest) : s = p ++ rest := by
  unfold after at h
  split_ifs at h with hp
  cases h
  obtain ⟨t,rfl⟩ := List.isPrefixOf_iff_prefix.mp hp
  simp

lemma before_some {p s rest : Str} (h : before p s = some rest) : s = rest ++ p := by
  unfold before at h
  split_ifs at h with hp
  cases h
  obtain ⟨t,rfl⟩ := List.isSuffixOf_iff_suffix.mp hp
  simp

lemma matchEnvelope_some {content attrs body : Str}
    (h : matchEnvelope content = some (attrs,body)) :
    content = envelope attrs body ∧ attrs ≠ [] ∧ ∀ c ∈ attrs, inTag c = true := by
  simp only [matchEnvelope,Option.bind_eq_bind,Option.bind_eq_some_iff] at h
  obtain ⟨s,hs,t,ht,b,hb,h⟩ := h
  split_ifs at h with hne
  cases h
  refine ⟨?_,hne,fun c hc => List.mem_takeWhile_imp hc⟩
  have hsplit : s = s.takeWhile inTag ++ (str ">\n" ++ (body ++ closeTag)) := by
    rw [← before_some hb,← after_some ht,List.takeWhile_append_dropWhile]
  unfold envelope
  rw [after_some hs]
  nth_rewrite 1 [hsplit]
  simp

lemma matchPair_some {s rest : Str} {kv : Str × Str} (h : matchPair s = some (kv,rest)) :
    WellFormed kv := by
  simp only [matchPair,Option.bind_eq_bind,Option.bind_eq_some_iff] at h
  obtain ⟨t,-,u,-,h⟩ := h
  split_ifs at h with hne
  cases h
  exact ⟨hne,fun c hc => List.mem_takeWhile_imp hc,fun c hc => List.mem_takeWhile_imp hc⟩

/-- Whatever the scanner skips, what it finds is well formed. -/
lemma findPairs_wellFormed (k : ℕ) (s : Str) : ∀ kv ∈ findPairs k s, WellFormed kv := by
  induction k generalizing s with
  | zero => cases s <;> simp [findPairs]
  | succ k ih =>
    cases s with
    | nil => simp [findPairs]
    | cons c s =>
      intro kv hkv
      unfold findPairs at hkv
      split at hkv
      · rename_i kv' rest hm
        rcases List.mem_cons.mp hkv with h | h
        · rw [h]
          exact matchPair_some hm
        · exact ih rest kv h
      · exact ih s kv hkv

lemma readAttributes_some {attrs : Str} {pairs : List (Str × Str)}
    (h : readAttributes attrs = some pairs) :
    attributes pairs = attrs ∧ (pairs.map Prod.fst).Nodup ∧ ∀ kv ∈ pairs, WellFormed kv := by
  simp only [readAttributes] at h
  split_ifs at h with hc
  cases h
  exact ⟨hc.1,hc.2,findPairs_wellFormed _ _⟩

/-! The hop chain. -/

lemma chainOf_iff {chain : Option Str} {hops : List Str} : ChainOf chain hops ↔
    splitHops chain = hops ∧ hops.length ≤ 32 ∧ hops.all isHop = true := by
  constructor
  · intro h
    rcases h with ⟨hnil,rfl⟩ | ⟨hpos,hle,hall,rfl⟩
    · refine ⟨?_,by simp,rfl⟩
      cases chain with
      | none => rfl
      | some s =>
        obtain rfl : s = [] := hnil
        rfl
    · have hne : hops ≠ [] := List.ne_nil_of_length_pos hpos
      exact ⟨splitHops_join hne hall,hle,List.all_eq_true.mpr hall⟩
  · intro h
    obtain ⟨hsplit,hle,hall⟩ := h
    unfold splitHops at hsplit
    split at hsplit
    · rename_i c cs
      right
      have hne : hops ≠ [] := hsplit ▸ List.splitOn_ne_nil _ _
      refine ⟨List.length_pos_iff.mpr hne,hle,List.all_eq_true.mp hall,?_⟩
      rw [← hsplit]
      exact congrArg some (List.intercalate_splitOn (ofChar ',')).symm
    · rename_i hnil
      left
      refine ⟨?_,hsplit.symm⟩
      cases chain with
      | none => rfl
      | some s =>
        cases s with
        | nil => rfl
        | cons c cs => exact absurd rfl (hnil c cs)

lemma ofText_some {s : Str} {mode : Mode} (h : Mode.ofText s = some mode) : s = mode.text := by
  unfold Mode.ofText at h
  split_ifs at h with h₁ h₂
  · cases h
    exact h₁
  · cases h
    exact h₂

lemma visible_iff {body : Str} : strip body ≠ [] ↔ ∃ c ∈ body, isSpace c = false := by
  rw [ne_eq,strip_eq_nil_iff]
  simp

/-! One content. -/

section
variable {U : Interp} {expected content body : Str} {pairs : List (Str × Str)} {mode : Mode}
  {hops : List Str}

lemma Derives.matchEnvelope_eq (h : Derives U expected content pairs body mode hops) :
    matchEnvelope content = some (attributes pairs,body) := by
  rw [h.content_eq]
  refine matchEnvelope_envelope body ?_ (attributes_inTag h.wellFormed)
  obtain ⟨kv,rest,rfl⟩ := List.exists_cons_of_ne_nil h.pairs_ne
  rw [attributes_cons]
  exact fun hnil => attrText_ne_nil kv (List.append_eq_nil_iff.mp hnil).1

lemma Derives.decodeMessage_eq (h : Derives U expected content pairs body mode hops) (mid : Str) :
    decodeMessage U expected mid (attributes pairs) body = some (.message mid body mode hops) := by
  obtain ⟨hsplit,hle,hall⟩ := chainOf_iff.mp h.chain
  have hstart : startswith body NOTICE = false := by
    rw [startswith,← Bool.not_eq_true,List.isPrefixOf_iff_prefix]
    exact h.no_notice
  simp only [decodeMessage,readAttributes_attributes h.wellFormed h.distinct,h.mode_eq,
    Option.bind_eq_bind,Option.bind_some,ofText_text,hsplit]
  rw [if_pos]
  exact ⟨h.sender,visible_iff.mpr h.visible,by simp [h.unmarked],by simp [hstart],hle,hall⟩

/-- A content is derived in one way only. -/
lemma Derives.unique {pairs' : List (Str × Str)} {body' : Str} {mode' : Mode} {hops' : List Str}
    (h : Derives U expected content pairs body mode hops)
    (h' : Derives U expected content pairs' body' mode' hops') :
    pairs = pairs' ∧ body = body' ∧ mode = mode' ∧ hops = hops' := by
  have henv := h.matchEnvelope_eq.symm.trans h'.matchEnvelope_eq
  simp only [Option.some.injEq,Prod.mk.injEq] at henv
  obtain ⟨hattrs,rfl⟩ := henv
  have hread := readAttributes_attributes h.wellFormed h.distinct
  rw [hattrs,readAttributes_attributes h'.wellFormed h'.distinct] at hread
  obtain rfl := Option.some.inj hread
  have hmsg := (h.decodeMessage_eq []).symm.trans (h'.decodeMessage_eq [])
  simp only [Option.some.injEq,Frame.message.injEq] at hmsg
  obtain ⟨-,-,rfl,rfl⟩ := hmsg
  exact ⟨rfl,rfl,rfl,rfl⟩

lemma derives_of_decodeMessage {mid attrs : Str} {f : Frame}
    (henv : matchEnvelope content = some (attrs,body))
    (h : decodeMessage U expected mid attrs body = some f) :
    ∃ pairs mode hops, Derives U expected content pairs body mode hops ∧
      f = .message mid body mode hops := by
  obtain ⟨hcontent,hne,-⟩ := matchEnvelope_some henv
  simp only [decodeMessage,Option.bind_eq_bind,Option.bind_eq_some_iff] at h
  obtain ⟨pairs,hread,mode,⟨text,htext,hmode⟩,h⟩ := h
  split_ifs at h with hchecks
  cases h
  obtain ⟨hfrom,hvisible,hmarker,hnotice,hle,hall⟩ := hchecks
  obtain ⟨hattrs,hdistinct,hwell⟩ := readAttributes_some hread
  refine ⟨pairs,mode,_,⟨?_,?_,hwell,hdistinct,hfrom,?_,chainOf_iff.mpr ⟨rfl,hle,hall⟩,
    visible_iff.mp hvisible,by simpa using hmarker,?_⟩,rfl⟩
  · rw [hcontent,← hattrs]
    rfl
  · intro hnil
    rw [hnil] at hattrs
    exact hne hattrs.symm
  · rw [htext,ofText_some hmode]
  · intro hp
    exact hnotice (List.isPrefixOf_iff_prefix.mpr hp)

end

/-- For every JSON line within the limit from the expected sender, of type `user`, with a valid id and
the role `user`: it is decoded exactly if it is not nested too deep, none of its integers is too long
and its content is derived by the grammar, and to the parts of the derivation, of which there is at most
one. -/
theorem decodeFrame_iff_derives (U : Interp) {raw : Bytes} {expected mid : Str}
    {frame message : Json} (hlen : raw.length ≤ MAX_LINE) (hload : Json.loads raw = some frame)
    (hfrom : strAt "from" frame = some expected) (htype : strAt "type" frame = some (str "user"))
    (hid : strAt "msg_id" frame = some mid) (hvalid : validId mid = true)
    (hmessage : frame.get (str "message") = some message)
    (hrole : strAt "role" message = some (str "user")) :
    (∀ f, decodeFrame U raw expected = some f ↔
      (frame.depth ≤ U.maxDepth ∧ frame.withinDigits U.maxDigits = true) ∧
      ∃ content pairs body mode hops,
        strAt "content" message = some content ∧ Derives U expected content pairs body mode hops ∧
        f = .message mid body mode hops) ∧
    ∀ content pairs pairs' body body' mode mode' hops hops',
      Derives U expected content pairs body mode hops →
      Derives U expected content pairs' body' mode' hops' →
      pairs = pairs' ∧ body = body' ∧ mode = mode' ∧ hops = hops' := by
  refine ⟨fun f => ?_,fun _ _ _ _ _ _ _ _ _ h h' => h.unique h'⟩
  have hctl : ¬ (some (str "user") = some (str "control")) := by decide
  have hreads : (frame.depth ≤ U.maxDepth ∧ frame.withinDigits U.maxDigits = true) ↔
      U.reads frame = true := by
    simp [Interp.reads]
  rw [hreads]
  by_cases hread : U.reads frame = true
  swap
  · -- `json.loads` has raised
    have hnone : U.loads raw = none := by
      rw [Interp.loads,hload]
      exact Option.filter_some_neg (Bool.eq_false_of_not_eq_true hread)
    rw [decodeFrame,if_neg (by omega),hnone]
    constructor
    · intro h
      cases h
    · intro h
      exact absurd h.1 hread
  have heq : decodeFrame U raw expected =
      (strAt "content" message).bind fun content =>
        (matchEnvelope content).bind fun p => decodeMessage U expected mid p.1 p.2 := by
    rw [decodeFrame,if_neg (by omega),Interp.loads_eq hload hread]
    simp only [Option.bind_eq_bind,Option.bind_some,hfrom,htype,hid,hmessage,hrole,hctl,hvalid,
      ne_eq,not_true_eq_false,if_false,false_and,and_self,if_true]
  rw [heq,and_iff_right hread]
  constructor
  · intro h
    simp only [Option.bind_eq_some_iff] at h
    obtain ⟨content,hcontent,⟨attrs,body⟩,henv,hdecode⟩ := h
    obtain ⟨pairs,mode,hops,hderives,hf⟩ := derives_of_decodeMessage henv hdecode
    exact ⟨content,pairs,body,mode,hops,hcontent,hderives,hf⟩
  · intro h
    obtain ⟨content,pairs,body,mode,hops,hcontent,hderives,rfl⟩ := h
    rw [hcontent,Option.bind_some,hderives.matchEnvelope_eq,Option.bind_some]
    exact hderives.decodeMessage_eq mid

/-- One message object, and a line with it. -/
def sampleMessage : Json := .obj [(str "role",.str (str "user")),(str "content",.str
  (str "<cross-session-message from=\"uds:x\" from-mode=\"bypass\">\nhi\n</cross-session-message>"))]

def sampleFrame : Json := .obj [(str "msg_id",.str sampleId.text),(str "type",.str (str "user")),
  (str "message",sampleMessage),(str "from",.str (str "uds:x"))]

theorem decodeFrame_iff_derives_sample : ∃ raw, Utf8.encode (Json.dumps sampleFrame) = some raw ∧
    ∀ f, decodeFrame .ascii raw (str "uds:x") = some f ↔
      (sampleFrame.depth ≤ Interp.ascii.maxDepth ∧
        sampleFrame.withinDigits Interp.ascii.maxDigits = true) ∧
      ∃ content pairs body mode hops,
        strAt "content" sampleMessage = some content ∧
        Derives .ascii (str "uds:x") content pairs body mode hops ∧
        f = .message sampleId.text body mode hops := by
  have hencode : (Utf8.encode (Json.dumps sampleFrame)).any (·.length ≤ MAX_LINE) = true := by
    decide +kernel
  obtain ⟨raw,hraw,hlen⟩ := (Option.any_eq_true _ _).mp hencode
  have hload : Json.loads raw = some sampleFrame :=
    Json.loads_encode_dumps rfl hraw (a := Json.chr 123) (b := Json.quote) rfl (by decide) (by decide)
  exact ⟨raw,hraw,(decodeFrame_iff_derives .ascii (by simpa using hlen) hload rfl rfl rfl
    (validId_text sampleId) rfl rfl).1⟩

/-- The same frame with one more key, for which the decoder does not ask. -/
def numberedFrame (n : ℕ) : Json := .obj [(str "n",.int n),(str "msg_id",.str sampleId.text),
  (str "type",.str (str "user")),(str "message",sampleMessage),(str "from",.str (str "uds:x"))]

lemma byteLength_numberedFrame (k : ℕ) :
    byteLength (Json.dumps (numberedFrame (10^k))) ≤ 4*(k+1)+1010 := by
  have hlength : (Json.dumpsNat (10^k)).length ≤ k+1 :=
    Json.length_dumpsNat_le (Nat.pow_lt_pow_succ (by decide))
  have hint : byteLength (Json.dumps (.int (10^k : ℕ))) ≤ 4*(k+1) :=
    (byteLength_le _).trans (Nat.mul_le_mul_left 4 hlength)
  have hrest : (([(str "msg_id",Json.str sampleId.text),(str "type",.str (str "user")),
      (str "message",sampleMessage),(str "from",.str (str "uds:x"))]).map Json.pairLength).sum ≤
      1000 := by decide +kernel
  have hkey : Json.stringLength (str "n") = 1 := by decide +kernel
  rw [numberedFrame,Json.byteLength_dumps_obj,Json.pairLength,hkey]
  change 1+byteLength (Json.dumps (.int (10^k : ℕ)))+6+_ ≤ _
  omega

lemma scalar_numberedFrame (n : ℕ) : Scalar (Json.dumps (numberedFrame n)) := by
  have hid : Scalar sampleId.text := by decide +kernel
  have hmessage : Scalar (Json.dumps sampleMessage) := by decide +kernel
  rw [numberedFrame,Json.scalar_dumps_obj]
  simp [hid,hmessage,Json.dumps]

/-- An integer of 4301 digits under a key of its own: `json.loads` raises, and the line is dropped. -/
theorem long_number_dropped : ¬ ∀ (U : Interp) (raw : Bytes) (expected mid : Str)
    (frame message : Json), raw.length ≤ MAX_LINE → Json.loads raw = some frame →
    strAt "from" frame = some expected → strAt "type" frame = some (str "user") →
    strAt "msg_id" frame = some mid → validId mid = true →
    frame.get (str "message") = some message → strAt "role" message = some (str "user") →
    ∀ f, decodeFrame U raw expected = some f ↔ ∃ content pairs body mode hops,
      strAt "content" message = some content ∧ Derives U expected content pairs body mode hops ∧
      f = .message mid body mode hops := by
  intro h
  have hlen : byteLength (Json.dumps (numberedFrame (10^4300))) ≤ MAX_LINE :=
    (byteLength_numberedFrame 4300).trans (by decide)
  have hload := Json.loads_encode_dumps (j := numberedFrame (10^4300)) rfl
    (encode_of_scalar (scalar_numberedFrame _)) (a := Json.chr 123) (b := Json.quote) rfl (by decide)
    (by decide)
  have hdecode : (((strAt "content" sampleMessage).bind matchEnvelope).bind fun p =>
      decodeMessage .ascii (str "uds:x") sampleId.text p.1 p.2) =
        some (.message sampleId.text (str "hi") .bypass []) := by decide +kernel
  obtain ⟨⟨attrs,text⟩,henv,hdecode⟩ := Option.bind_eq_some_iff.mp hdecode
  obtain ⟨content,hcontent,henv⟩ := Option.bind_eq_some_iff.mp henv
  obtain ⟨pairs,mode,hops,hderives,-⟩ := derives_of_decodeMessage henv hdecode
  have hsome := (h .ascii _ (str "uds:x") sampleId.text _ sampleMessage hlen hload rfl rfl rfl
    (validId_text sampleId) rfl rfl _).mpr ⟨content,pairs,text,mode,hops,hcontent,hderives,rfl⟩
  have hreads : Interp.ascii.reads (numberedFrame (10^4300)) = false := by decide +kernel
  rw [decodeFrame,if_neg (by exact Nat.not_lt.mpr hlen),Interp.loads,hload,
    Option.filter_some_neg hreads] at hsome
  cases hsome

end PeerChat.Wire
