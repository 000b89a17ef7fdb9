import PeerChat.Python.JsonRoundTrip
import PeerChat.Wire.Framing
import PeerChat.Wire.Outbound

/-! What a receiver decodes from the bytes of a sender: the sender's own message, under every
chunking of the stream. -/
namespace PeerChat.Wire
open Python

/-! The parts of the opening tag are well formed. -/

lemma isHex_inValue {c : CodePoint} (h : Sha256.isHex c = true) : inValue c = true := by
  simp only [Sha256.isHex,Bool.or_eq_true,Bool.and_eq_true,decide_eq_true_eq] at h
  have hne : ∀ d : CodePoint, d.val ∈ [60,62,10,34] → c ≠ d := by
    rintro d hd rfl
    simp only [List.mem_cons,List.not_mem_nil,or_false] at hd
    omega
  simp [inValue,inTag,hne (ofChar '<') (by decide),hne (ofChar '>') (by decide),
    hne (ofChar '\n') (by decide),hne (ofChar '"') (by decide)]

lemma inModel_inValue {c : CodePoint} (h : inModel c = true) : inValue c = true := by
  have hne : ∀ d : CodePoint, inModel d = false → c ≠ d := by
    rintro d hd rfl
    rw [h] at hd
    contradiction
  simp [inValue,inTag,hne (ofChar '<') (by decide),hne (ofChar '>') (by decide),
    hne (ofChar '\n') (by decide),hne (ofChar '"') (by decide)]

/-- A test of every character of a literal, by evaluation. -/
lemma all_str {p : CodePoint → Bool} (text : String) (h : (str text).all p = true) :
    ∀ c ∈ str text, p c = true :=
  List.all_eq_true.mp h

lemma senderName_inModel (m : Machine) (config : Config) :
    ∀ c ∈ senderName m config false, inModel c = true := by
  have hcodex := all_str (p := inModel) "Codex-" (by decide +kernel)
  have hsuffix : ∀ s, ∀ c ∈ modelSuffix s, inModel c = true := by
    intro s c hc
    obtain ⟨d,-,rfl⟩ := List.mem_map.mp (List.mem_of_mem_take hc)
    split_ifs with hd
    · exact hd
    · decide +kernel
  intro c hc
  simp only [senderName,Bool.false_eq_true,if_false] at hc
  split at hc
  · rcases List.mem_append.mp hc with h | h
    · exact hcodex c h
    · exact hsuffix _ c h
  · exact all_str "Codex" (by decide +kernel) c hc

lemma senderName_inValue (m : Machine) (config : Config) :
    ∀ c ∈ senderName m config false, inValue c = true :=
  fun c hc => inModel_inValue (senderName_inModel m config c hc)

lemma ownHop_isHop {thread own : Str} (h : ownHop thread = .ok own) : isHop own = true := by
  simp only [ownHop,bind,Except.bind] at h
  split at h
  · contradiction
  · cases h
    simp only [isHop,Bool.and_eq_true,beq_iff_eq,List.all_eq_true]
    refine ⟨by simp,?_⟩
    intro c hc
    exact Sha256.hexdigest_isHex _ c (List.mem_of_mem_take hc)

lemma extendHops_isHop (kind : Option PeerKind) {own : Str} {hops : List Str}
    (hown : isHop own = true) (hhops : ∀ h ∈ hops, isHop h = true) :
    ∀ h ∈ extendHops kind own hops, isHop h = true := by
  intro h hh
  simp only [extendHops] at hh
  split_ifs at hh
  · rcases List.mem_append.mp hh with hm | hm
    · exact hhops h hm
    · rw [List.mem_singleton.mp hm]
      exact hown
  · exact hhops h hh

lemma isHop_isHex {h : Str} (hh : isHop h = true) : ∀ c ∈ h, Sha256.isHex c = true := by
  simp only [isHop,Bool.and_eq_true,List.all_eq_true] at hh
  exact hh.2

lemma isHop_ne_nil {h : Str} (hh : isHop h = true) : h ≠ [] := by
  rintro rfl
  revert hh
  decide

lemma mem_join {sep c : CodePoint} {parts : List Str} (h : c ∈ join sep parts) :
    c = sep ∨ ∃ p ∈ parts, c ∈ p := by
  induction parts with
  | nil => simp [join,List.intercalate] at h
  | cons p ps ih =>
    cases ps with
    | nil =>
      right
      exact ⟨p,by simp,by simpa [join,List.intercalate] using h⟩
    | cons q qs =>
      have hj : join sep (p::q::qs) = p ++ sep :: join sep (q::qs) := by
        simp [join,List.intercalate]
      rw [hj,List.mem_append,List.mem_cons] at h
      rcases h with h | h | h
      · exact Or.inr ⟨p,by simp,h⟩
      · exact Or.inl h
      · rcases ih h with h | ⟨r,hr,hc⟩
        · exact Or.inl h
        · exact Or.inr ⟨r,by simp [List.mem_cons.mp hr],hc⟩

/-- Splitting the attribute gives back the hops that were joined into it. -/
lemma splitHops_join {hops : List Str} (hne : hops ≠ []) (h : ∀ x ∈ hops, isHop x = true) :
    splitHops (some (join (ofChar ',') hops)) = hops := by
  have hsep : ∀ x ∈ hops, ofChar ',' ∉ x := by
    intro x hx hc
    exact absurd (isHop_isHex (h x hx) _ hc) (by decide)
  have hj := split_join (ofChar ',') hops hne hsep
  cases hs : join (ofChar ',') hops with
  | nil =>
    obtain ⟨x,xs,rfl⟩ := List.exists_cons_of_ne_nil hne
    have hx : x ≠ [] := isHop_ne_nil (h x (by simp))
    cases xs with
    | nil => exact absurd (by simpa [join,List.intercalate] using hs) hx
    | cons y ys => simp [join,List.intercalate] at hs
  | cons c cs =>
    rw [hs] at hj
    exact hj

lemma mode_inValue (mode : Mode) : ∀ c ∈ mode.text, inValue c = true := by
  cases mode
  · exact all_str "bypass" (by decide +kernel)
  · exact all_str "prompting" (by decide +kernel)

lemma ofText_text (mode : Mode) : Mode.ofText mode.text = some mode := by
  cases mode <;> decide

lemma wellFormed_of_key (key : String) {value : Str} (hne : str key ≠ [])
    (hk : (str key).all inKey = true) (hv : ∀ c ∈ value, inValue c = true) :
    WellFormed (str key,value) :=
  ⟨hne,all_str key hk,hv⟩

lemma tagPairs_wellFormed {address name : Str} {hops : List Str} (mode : Mode)
    (ha : ∀ c ∈ address, inValue c = true) (hn : ∀ c ∈ name, inValue c = true)
    (hh : ∀ h ∈ hops, isHop h = true) :
    ∀ kv ∈ tagPairs address hops name mode, WellFormed kv := by
  intro kv hkv
  simp only [tagPairs,List.mem_cons,List.mem_append,List.not_mem_nil,or_false] at hkv
  rcases hkv with rfl | hkv | rfl | rfl
  · exact wellFormed_of_key "from" (by decide) (by decide +kernel) ha
  · split_ifs at hkv with hnil
    · contradiction
    · obtain rfl := List.mem_singleton.mp hkv
      refine wellFormed_of_key "hop-chain" (by decide) (by decide +kernel) ?_
      intro c hc
      rcases mem_join hc with rfl | ⟨p,hp,hcp⟩
      · decide
      · exact isHex_inValue (isHop_isHex (hh p hp) c hcp)
  · exact wellFormed_of_key "from-name" (by decide) (by decide +kernel) hn
  · exact wellFormed_of_key "from-mode" (by decide) (by decide +kernel) (mode_inValue mode)

lemma tagPairs_nodup (address name : Str) (hops : List Str) (mode : Mode) :
    ((tagPairs address hops name mode).map Prod.fst).Nodup := by
  simp only [tagPairs]
  split_ifs
  · change [str "from",str "from-name",str "from-mode"].Nodup
    decide
  · change [str "from",str "hop-chain",str "from-name",str "from-mode"].Nodup
    decide

lemma tagPairs_lookup (address name : Str) {hops : List Str} (mode : Mode)
    (hh : ∀ h ∈ hops, isHop h = true) :
    (tagPairs address hops name mode).lookup (str "from") = some address ∧
    (tagPairs address hops name mode).lookup (str "from-mode") = some mode.text ∧
    splitHops ((tagPairs address hops name mode).lookup (str "hop-chain")) = hops := by
  simp only [tagPairs]
  split_ifs with hnil
  · subst hnil
    exact ⟨rfl,rfl,rfl⟩
  · exact ⟨rfl,rfl,splitHops_join hnil hh⟩

lemma attributes_inTag {pairs : List (Str × Str)} (h : ∀ kv ∈ pairs, WellFormed kv) :
    ∀ c ∈ attributes pairs, inTag c = true := by
  have hkey : ∀ c, inKey c = true → inTag c = true := by
    intro c hc
    have hne : ∀ d : CodePoint, inKey d = false → c ≠ d := by
      rintro d hd rfl
      rw [hc] at hd
      contradiction
    simp [inTag,hne (ofChar '<') (by decide),hne (ofChar '>') (by decide),
      hne (ofChar '\n') (by decide)]
  intro c hc
  rcases mem_join hc with rfl | ⟨p,hp,hcp⟩
  · decide
  · obtain ⟨kv,hkv,rfl⟩ := List.mem_map.mp hp
    obtain ⟨-,hk,hv⟩ := h kv hkv
    simp only [attrText,List.mem_append] at hcp
    rcases hcp with ((hcp | hcp) | hcp) | hcp
    · exact hkey c (hk c hcp)
    · exact all_str "=\"" (by decide +kernel) c hcp
    · have := hv c hcp
      simp only [inValue,Bool.and_eq_true] at this
      exact this.1
    · exact all_str "\"" (by decide +kernel) c hcp

/-! The line has no newline of its own. -/

lemma newline_not_mem_escapeChar (c : CodePoint) : Json.chr 10 ∉ Json.escapeChar c := by
  have hdigit : ∀ n, Json.hexDigit n ≠ Json.chr 10 := by
    intro n he
    have := congrArg Fin.val he
    simp only [Json.hexDigit] at this
    split_ifs at this <;> simp only at this <;> omega
  intro hm
  simp only [Json.escapeChar] at hm
  split_ifs at hm with h1 h2 h3 h4 h5 h6 h7 h8
  · exact absurd hm (by decide)
  · exact absurd hm (by decide)
  · exact absurd hm (by decide)
  · exact absurd hm (by decide)
  · exact absurd hm (by decide)
  · exact absurd hm (by decide)
  · exact absurd hm (by decide)
  · simp only [List.mem_cons,List.not_mem_nil,or_false] at hm
    rcases hm with h | h | h | h | h | h
    · exact absurd h (by decide)
    · exact absurd h (by decide)
    · exact absurd h (by decide)
    · exact absurd h (by decide)
    · exact hdigit _ h.symm
    · exact hdigit _ h.symm
  · exact h3 (List.mem_singleton.mp hm).symm

lemma newline_not_mem_dumpsStr (s : Str) : Json.chr 10 ∉ Json.dumpsStr s := by
  have hq : Json.chr 10 ≠ Json.quote := by decide
  simp only [Json.dumpsStr,List.mem_cons,List.mem_append,List.mem_flatMap,List.not_mem_nil,
    or_false,not_or,not_exists,not_and]
  exact ⟨hq,fun c _ => newline_not_mem_escapeChar c,hq⟩

lemma newline_not_mem_frame (mid content address : Str) :
    Json.chr 10 ∉ Json.dumps (frameJson mid content address) := by
  have h1 : Json.chr 10 ∉ Json.dumpsInt 1 := by decide
  simp only [frameJson,Json.dumps,Json.dumpsPairs,List.mem_cons,List.mem_append,
    newline_not_mem_dumpsStr,h1,List.not_mem_nil,or_false,false_or,not_or]
  decide

lemma newline_not_mem_encode {s : Str} {bytes : Bytes} (h : Utf8.encode s = some bytes)
    (hs : Json.chr 10 ∉ s) : 10 ∉ bytes := by
  simp only [Utf8.encode] at h
  split_ifs at h
  cases h
  intro hm
  obtain ⟨c,hc,hcm⟩ := List.mem_flatMap.mp hm
  have hval : c.val = 10 := (Utf8.mem_encodeChar_iff (by decide) c).mp hcm
  have he : c = Json.chr 10 := Fin.ext hval
  exact hs (he ▸ hc)

/-! What a successful `outbound` has checked. -/

/-- The facts that a call which reached the socket write has established. -/
structure Sent (U : Interp) (m : Machine) (config : Config) (peer : PeerRecord)
    (body mid : Str) (hops : List Str) (data : Bytes) where
  mode : Mode
  own : Str
  mode_eq : permissionClass m config.codexHome config.thread = .ok mode
  own_eq : ownHop config.thread = .ok own
  body_ne : strip body ≠ []
  body_marker : nestedMarker U body = false
  hops_le : (extendHops peer.kind own hops).length ≤ 32
  data_eq : Utf8.encode (Json.dumps (frameJson mid
    (envelope (attributes (tagPairs (str "uds:" ++ config.socket) (extendHops peer.kind own hops)
      (senderName m config false) mode)) (rstrip body))
    (str "uds:" ++ config.socket)) ++ [ofChar '\n']) = some data
  data_le : data.length-1 ≤ MAX_LINE

lemma encodeText_eq {s : Str} {bytes : Bytes} (h : encodeText s = .ok bytes) :
    Utf8.encode s = some bytes := by
  simp only [encodeText] at h
  split at h
  · cases h
    assumption
  · contradiction

theorem outbound_sent {U : Interp} {m : Machine} {config : Config} {peer : PeerRecord}
    {body mid : Str} {hops : List Str} {e : Endpoint} {data : Bytes}
    (h : outbound U m config peer body mid hops false = .ok (e,data)) :
    Nonempty (Sent U m config peer body mid hops data) := by
  simp only [outbound,bind,Except.bind,throw,throwThe,MonadExceptOf.throw] at h
  split at h
  · contradiction
  split at h
  · contradiction
  split_ifs at h with hbody hadvisory
  cases hm : statedMode m config false with
  | error exc => simp [hm] at h
  | ok mode =>
  cases ho : ownHop config.thread with
  | error exc => simp [hm,ho] at h
  | ok own =>
  simp only [hm,ho] at h
  split_ifs at h with hhops
  split at h
  · contradiction
  rename_i bytes hdata
  split_ifs at h with hlen
  split at h
  · contradiction
  cases h
  obtain ⟨hne,hmarker⟩ := not_or.mp hbody
  have hmode : permissionClass m config.codexHome config.thread = .ok mode := by
    simp only [statedMode,Bool.false_eq_true,if_false] at hm
    split at hm
    · rename_i hp
      rw [hp,← hm]
    · contradiction
  exact ⟨⟨mode,own,hmode,ho,hne,by simpa using hmarker,by omega,encodeText_eq hdata,by omega⟩⟩

namespace Sent
variable {U : Interp} {m : Machine} {config : Config} {peer : PeerRecord} {body : Str}
  {hops : List Str} {data : Bytes}

abbrev address (config : Config) : Str := str "uds:" ++ config.socket

/-- The attributes that the call has written. -/
def pairs {mid : Str} (s : Sent U m config peer body mid hops data) : List (Str × Str) :=
  tagPairs (address config) (extendHops peer.kind s.own hops) (senderName m config false) s.mode

lemma chain_isHop {mid : Str} (s : Sent U m config peer body mid hops data)
    (hhops : ∀ h ∈ hops, isHop h = true) :
    ∀ h ∈ extendHops peer.kind s.own hops, isHop h = true :=
  extendHops_isHop _ (ownHop_isHop s.own_eq) hhops

lemma pairs_wellFormed {mid : Str} (s : Sent U m config peer body mid hops data)
    (hhops : ∀ h ∈ hops, isHop h = true) (hsocket : ∀ c ∈ config.socket, inValue c = true) :
    ∀ kv ∈ s.pairs, WellFormed kv := by
  have ha : ∀ c ∈ address config, inValue c = true := by
    intro c hc
    rcases List.mem_append.mp hc with h | h
    · exact all_str "uds:" (by decide +kernel) c h
    · exact hsocket c h
  exact tagPairs_wellFormed s.mode ha (senderName_inValue m config) (s.chain_isHop hhops)

lemma matchEnvelope_eq {mid : Str} (s : Sent U m config peer body mid hops data)
    (hhops : ∀ h ∈ hops, isHop h = true) (hsocket : ∀ c ∈ config.socket, inValue c = true) :
    matchEnvelope (envelope (attributes s.pairs) (rstrip body)) =
      some (attributes s.pairs,rstrip body) := by
  refine matchEnvelope_envelope _ ?_ (attributes_inTag (s.pairs_wellFormed hhops hsocket))
  intro hnil
  rw [pairs,tagPairs,attributes_cons] at hnil
  exact attrText_ne_nil _ (List.append_eq_nil_iff.mp hnil).1

theorem decodeMessage_eq {mid : Str} (s : Sent U m config peer body mid hops data)
    (hhops : ∀ h ∈ hops, isHop h = true) (hsocket : ∀ c ∈ config.socket, inValue c = true)
    (hnotice : startswith body NOTICE = false) :
    decodeMessage U (address config) mid (attributes s.pairs) (rstrip body) =
      some (.message mid (rstrip body) s.mode (extendHops peer.kind s.own hops)) := by
  have hchain := s.chain_isHop hhops
  obtain ⟨hfrom,hmode,hsplit⟩ := tagPairs_lookup (address config) (senderName m config false)
    s.mode hchain
  have hread : readAttributes (attributes s.pairs) = some s.pairs :=
    readAttributes_attributes (s.pairs_wellFormed hhops hsocket) (tagPairs_nodup ..)
  have hblank : strip (rstrip body) ≠ [] := fun h => s.body_ne ((strip_rstrip_eq_nil_iff _).mp h)
  have hmarker := nestedMarker_rstrip U s.body_marker
  have hstart : startswith (rstrip body) NOTICE = false := by
    by_contra hn
    rw [Bool.not_eq_false,startswith,List.isPrefixOf_iff_prefix] at hn
    have hp := hn.trans (rstrip_isPrefix body)
    rw [startswith,← Bool.not_eq_true,List.isPrefixOf_iff_prefix] at hnotice
    exact hnotice hp
  simp only [decodeMessage,hread,Option.bind_eq_bind,Option.bind_some]
  rw [pairs,hmode,Option.bind_some,ofText_text,Option.bind_some,hsplit,hfrom,if_pos]
  exact ⟨rfl,hblank,by simp [hmarker],by simp [hstart],s.hops_le,List.all_eq_true.mpr hchain⟩

/-- The line without its newline. -/
lemma exists_line {mid : Str} (s : Sent U m config peer body mid hops data) :
    ∃ line, data = line ++ [10] ∧ 10 ∉ line ∧ line.length ≤ MAX_LINE ∧
      Utf8.encode (Json.dumps (frameJson mid (envelope (attributes s.pairs) (rstrip body))
        (address config))) = some line := by
  obtain ⟨line,nl,hline,hnl,hdata⟩ := Utf8.encode_append s.data_eq
  have hten : Utf8.encode [ofChar '\n'] = some [10] := by decide
  obtain rfl : nl = [10] := by
    rw [hten] at hnl
    exact (Option.some.inj hnl).symm
  have hlen := s.data_le
  rw [hdata,List.length_append,List.length_singleton,Nat.add_sub_cancel] at hlen
  exact ⟨line,hdata,newline_not_mem_encode hline (newline_not_mem_frame _ _ _),hlen,hline⟩

/-- The receiver finds the sender's envelope in the line. -/
theorem decodeFrame_line {u : Uuid} (s : Sent U m config peer body u.text hops data)
    (hhops : ∀ h ∈ hops, isHop h = true) (hsocket : ∀ c ∈ config.socket, inValue c = true)
    {line : Bytes} (hlen : line.length ≤ MAX_LINE)
    (hline : Utf8.encode (Json.dumps (frameJson u.text
      (envelope (attributes s.pairs) (rstrip body)) (address config))) = some line) :
    decodeFrame U line (address config) =
      decodeMessage U (address config) u.text (attributes s.pairs) (rstrip body) := by
  have hload : U.loads line = some (frameJson u.text
      (envelope (attributes s.pairs) (rstrip body)) (address config)) := by
    refine Interp.loads_eq (Json.loads_encode_dumps rfl hline (a := Json.chr 123) (b := Json.quote)
      rfl ?_ ?_) (reads_frameJson U _ _ _)
    · decide
    · decide
  have hmatch := s.matchEnvelope_eq hhops hsocket
  rw [decodeFrame,if_neg (by omega),hload]
  set content := envelope (attributes s.pairs) (rstrip body)
  have hfrom : strAt "from" (frameJson u.text content (address config)) = some (address config) :=
    rfl
  have htype : strAt "type" (frameJson u.text content (address config)) = some (str "user") := rfl
  have hid : strAt "msg_id" (frameJson u.text content (address config)) = some u.text := rfl
  have hmessage : (frameJson u.text content (address config)).get (str "message") =
      some (.obj [(str "role",.str (str "user")),(str "content",.str content)]) := rfl
  have hcontent : strAt "content" (.obj [(str "role",.str (str "user")),
      (str "content",.str content)]) = some content := rfl
  have hrole : strAt "role" (.obj [(str "role",.str (str "user")),
      (str "content",.str content)]) = some (str "user") := rfl
  have hctl : ¬ (some (str "user") = some (str "control")) := by decide
  simp only [Option.bind_eq_bind,Option.bind_some,hfrom,htype,hid,hmessage,hcontent,hrole,hctl,
    hmatch,ne_eq,not_true_eq_false,if_false,false_and,and_true,validId_text,if_true]

theorem decodeFrame_eq {u : Uuid} (s : Sent U m config peer body u.text hops data)
    (hhops : ∀ h ∈ hops, isHop h = true) (hsocket : ∀ c ∈ config.socket, inValue c = true)
    (hnotice : startswith body NOTICE = false) {line : Bytes} (hlen : line.length ≤ MAX_LINE)
    (hline : Utf8.encode (Json.dumps (frameJson u.text
      (envelope (attributes s.pairs) (rstrip body)) (address config))) = some line) :
    decodeFrame U line (address config) =
      some (.message u.text (rstrip body) s.mode (extendHops peer.kind s.own hops)) :=
  (s.decodeFrame_line hhops hsocket hlen hline).trans (s.decodeMessage_eq hhops hsocket hnotice)

end Sent

/-! One sender and its peer, for the examples below. -/

def sampleId : Uuid := ⟨List.replicate 32 7,rfl⟩

def samplePeer : PeerRecord where
  kind := some .claude
  key := some (str "41:9")
  name := some (str "Claude")
  pid := some 41
  identity := some (str "41:9")
  socket := some (str "/run/peer.sock")

def sampleConfig : Config where
  thread := sampleId.text
  socket := str "/run/own.sock"
  codexHome := str "/home/u/.codex"
  ownerPid := 7
  ownerIdentity := str "7:1"
  peers := some [(str "41:9",samplePeer)]

def sampleBody : Str := str "\n say \"hi\" \\ <there> \n "

def sampleHop : Str := str "0123456789abcdef01234567"

/-- A machine on which the owner and one peer are alive. -/
def sampleMachine : Machine := { Machine.bare with
  processIdentity := fun pid =>
    if pid = 41 then some (str "41:9") else if pid = 7 then some (str "7:1") else none
  processExe := fun _ => some (str "/bin/codex")
  commandHome := str "/home/u/.codex"
  lstat := fun _ => .ok ⟨true,true⟩
  threadRow := fun _ _ => some {
    sandboxPolicy := str "\x7b\"type\": \"read-only\"\x7d"
    approvalMode := str "on-request"
    archived := false
    model := some (str "gpt 5") } }

/-- Every non-advisory message that reaches the socket write is decoded, under every chunking,
to exactly what was sent. -/
theorem decodeFrame_outbound (U : Interp) (m : Machine) (config : Config) (peer : PeerRecord)
    (body : Str) (u : Uuid) (hops : List Str) (e : Endpoint) (data : Bytes)
    (hsend : outbound U m config peer body u.text hops false = .ok (e,data))
    (hhops : ∀ h ∈ hops, isHop h = true) (hsocket : ∀ c ∈ config.socket, inValue c = true)
    (hnotice : startswith body NOTICE = false) :
    ∃ frame mode own, data = frame ++ [10] ∧ 10 ∉ frame ∧
      permissionClass m config.codexHome config.thread = .ok mode ∧
      ownHop config.thread = .ok own ∧
      (∀ chunks : List Bytes, chunks.flatten = data → feedAll [] chunks = some ([frame],[])) ∧
      decodeFrame U frame (str "uds:" ++ config.socket) = some (.message u.text (rstrip body) mode
        (if peer.kind = some .codex then hops ++ [own]
          else if own ∈ hops then hops else hops ++ [own])) := by
  obtain ⟨s⟩ := outbound_sent hsend
  obtain ⟨line,hdata,hnl,hlen,hline⟩ := s.exists_line
  have hdec := s.decodeFrame_eq hhops hsocket hnotice hlen hline
  have hchain : extendHops peer.kind s.own hops = if peer.kind = some .codex then hops ++ [s.own]
      else if s.own ∈ hops then hops else hops ++ [s.own] := by
    simp only [extendHops]
    by_cases hk : peer.kind = some .codex <;> by_cases ho : s.own ∈ hops <;> simp [hk,ho]
  have hne : line ≠ [] := by
    rintro rfl
    have hd := Utf8.decode_encode hline
    have hn : Utf8.decode [] = some [] := rfl
    rw [hn] at hd
    cases hd
  rw [hchain] at hdec
  refine ⟨line,s.mode,s.own,hdata,hnl,s.mode_eq,s.own_eq,?_,hdec⟩
  intro chunks hc
  have hframed : Framed ([] ++ chunks.flatten) [line] [] :=
    ⟨by simp [hc,hdata],by simpa using hnl,by simp⟩
  have hfits : WithinLimit [line] [] := by simpa [WithinLimit] using hlen
  rw [hframed.feedAll_eq chunks (by simp) (by simp),if_pos hfits,
    List.filter_cons_of_pos (by simpa using hne)]
  rfl

/-- One call: a Claude peer, a hop already in the chain, a body with quotes and blank ends. -/
theorem decodeFrame_outbound_sample :
    ∃ e data frame mode own, outbound .ascii sampleMachine sampleConfig samplePeer sampleBody
        sampleId.text [sampleHop] false = .ok (e,data) ∧ data = frame ++ [10] ∧ 10 ∉ frame ∧
      permissionClass sampleMachine sampleConfig.codexHome sampleConfig.thread = .ok mode ∧
      ownHop sampleConfig.thread = .ok own ∧
      (∀ chunks : List Bytes, chunks.flatten = data → feedAll [] chunks = some ([frame],[])) ∧
      decodeFrame .ascii frame (str "uds:" ++ sampleConfig.socket) =
        some (.message sampleId.text (rstrip sampleBody) mode
          (if samplePeer.kind = some .codex then [sampleHop] ++ [own]
            else if own ∈ [sampleHop] then [sampleHop] else [sampleHop] ++ [own])) := by
  have hok : (outbound .ascii sampleMachine sampleConfig samplePeer sampleBody sampleId.text
      [sampleHop] false).isOk = true := by decide +kernel
  cases hs : outbound .ascii sampleMachine sampleConfig samplePeer sampleBody sampleId.text
      [sampleHop] false with
  | error exc =>
    rw [hs] at hok
    contradiction
  | ok r =>
    obtain ⟨frame,mode,own,h⟩ := decodeFrame_outbound .ascii sampleMachine sampleConfig samplePeer
      sampleBody sampleId [sampleHop] r.1 r.2 hs (by decide +kernel)
      (all_str _ (by decide +kernel)) (by decide +kernel)
    exact ⟨r.1,r.2,frame,mode,own,rfl,h⟩

end PeerChat.Wire
