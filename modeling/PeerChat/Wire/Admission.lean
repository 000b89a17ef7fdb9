import PeerChat.Programs.Commands
import PeerChat.Wire.Grammar
import PeerChat.Wire.Plain

/-! What `send` admits and what `outbound` and the receiver take. The command counts the bytes of a
text, the sender the bytes of its frame, in which the text is escaped, and the receiver drops a text
that begins like an advisory. -/
namespace PeerChat
open Python Wire

/-- `validate_socket_path(path)`, by the size of `sun_path` on the platform. -/
def validSocketPath (limit : ℕ) (path : Str) : Bool :=
  (Utf8.encode path).any (·.length+1 ≤ limit)

/-- Everything that `outbound` asks for apart from its text: a live peer, the permissions of the
thread, its hop, and a connection. -/
structure Reachable (m : Machine) (config : Config) (peer : PeerRecord) where
  endpoint : Endpoint
  mode : Mode
  own : Str
  endpoint_eq : endpointOf m peer = .ok endpoint
  verified : verifySocket m endpoint = .ok ()
  mode_eq : permissionClass m config.codexHome config.thread = .ok mode
  own_eq : ownHop config.thread = .ok own
  connects : m.connect endpoint = .ok ()

/-! The length of a frame. -/

lemma stringLength_join {hops : List Str} (hne : hops ≠ []) (h : ∀ x ∈ hops, isHop x = true) :
    Json.stringLength (join (ofChar ',') hops) + 1 = 25*hops.length := by
  have hone : ∀ x ∈ hops, Json.stringLength x = 24 := by
    intro x hx
    rw [Json.stringLength_plain fun c hc => plain_of_isHex (isHop_isHex (h x hx) c hc)]
    have := h x hx
    simp only [isHop,Bool.and_eq_true,beq_iff_eq] at this
    exact this.1
  have hcomma : byteLength (Json.escapeChar (ofChar ',')) = 1 := by decide
  induction hops with
  | nil => contradiction
  | cons x xs ih =>
    cases xs with
    | nil => simpa [join] using hone x (by simp)
    | cons y ys =>
      have hj : join (ofChar ',') (x::y::ys) = x ++ ofChar ',' :: join (ofChar ',') (y::ys) := by
        simp [join]
      have hrest := ih (by simp) (fun z hz => h z (List.mem_cons_of_mem _ hz))
        fun z hz => hone z (List.mem_cons_of_mem _ hz)
      rw [hj,Json.stringLength_append,Json.stringLength_cons,hone x (by simp),hcomma]
      simp only [List.length_cons] at hrest ⊢
      omega

/-- The opening tag's attributes: with the escapes of the quotes, 53 bytes besides the values. -/
lemma stringLength_attributes {address name : Str} {hops : List Str} (mode : Mode) (hne : hops ≠ [])
    (hhops : ∀ h ∈ hops, isHop h = true) (hname : ∀ c ∈ name, inModel c = true) :
    Json.stringLength (attributes (tagPairs address hops name mode)) =
      Json.stringLength address + 25*hops.length + name.length + mode.text.length + 53 := by
  have hchain := stringLength_join hne hhops
  have hn : Json.stringLength name = name.length :=
    Json.stringLength_plain fun c hc => plain_of_inModel (hname c hc)
  have hm : Json.stringLength mode.text = mode.text.length := by cases mode <;> decide
  have hkeys : Json.stringLength (str "from") = 4 ∧ Json.stringLength (str "hop-chain") = 9 ∧
      Json.stringLength (str "from-name") = 9 ∧ Json.stringLength (str "from-mode") = 9 ∧
      Json.stringLength (str "=\"") = 3 ∧ Json.stringLength (str "\"") = 2 := by decide
  obtain ⟨h1,h2,h3,h4,h5,h6⟩ := hkeys
  have hspace : byteLength (Json.escapeChar (ofChar ' ')) = 1 := by decide
  simp only [tagPairs,if_neg hne,List.cons_append,List.nil_append,attributes_cons,attrText,
    List.cons_ne_nil,if_false,Json.stringLength_append,Json.stringLength_cons,h1,h2,h3,h4,h5,h6,
    hspace,hn,hm,if_true,Json.stringLength_nil]
  omega

/-- The keys of a frame and their punctuation take 117 bytes. -/
lemma byteLength_frameJson (mid content address : Str) :
    byteLength (Json.dumps (frameJson mid content address)) =
      Json.stringLength mid + Json.stringLength content + Json.stringLength address + 117 := by
  have hstr : ∀ (key : String) (value : Str), Json.pairLength (str key,.str value) =
      Json.stringLength (str key) + Json.stringLength value + 8 := by
    intro key value
    simp only [Json.pairLength,Json.dumps_str,Json.byteLength_dumpsStr]
    omega
  have hmsgV : Json.pairLength (str "msgV",.int 1) = 11 := by decide
  have hrole : Json.pairLength (str "role",.str (str "user")) = 16 := by decide +kernel
  have htype : Json.pairLength (str "type",.str (str "user")) = 16 := by decide +kernel
  have hpriority : Json.pairLength (str "priority",.str (str "next")) = 20 := by decide +kernel
  have hmessage : ∀ ps, Json.pairLength (str "message",.obj ps) =
      13 + byteLength (Json.dumps (.obj ps)) := by
    intro ps
    have hkey : Json.stringLength (str "message") = 7 := by decide
    simp only [Json.pairLength,hkey]
    omega
  have hkeys : Json.stringLength (str "msg_id") = 6 ∧ Json.stringLength (str "content") = 7 ∧
      Json.stringLength (str "from") = 4 := by decide
  rw [frameJson,Json.byteLength_dumps_obj]
  simp only [List.map_cons,List.map_nil,List.sum_cons,List.sum_nil,hmsgV,hmessage,
    Json.byteLength_dumps_obj,hrole,htype,hpriority,hstr,hkeys]
  omega

lemma stringLength_envelope (attrs body : Str) : Json.stringLength (envelope attrs body) =
    Json.stringLength attrs + Json.stringLength body + 52 := by
  have hopen : Json.stringLength openTag = 23 := by decide +kernel
  have hclose : Json.stringLength closeTag = 26 := by decide +kernel
  have hmid : Json.stringLength (str ">\n") = 3 := by decide
  simp only [envelope,Json.stringLength_append,hopen,hclose,hmid]
  omega

/-- The frame of a message: 258 bytes besides what the sender and the text bring. -/
lemma byteLength_frame {address name body : Str} {hops : List Str} (mode : Mode) (u : Uuid)
    (hne : hops ≠ []) (hhops : ∀ h ∈ hops, isHop h = true) (hname : ∀ c ∈ name, inModel c = true) :
    byteLength (Json.dumps (frameJson u.text
      (envelope (attributes (tagPairs address hops name mode)) body) address)) =
      2*Json.stringLength address + 25*hops.length + name.length + mode.text.length +
        Json.stringLength body + 258 := by
  have hattrs := @stringLength_attributes address name hops mode hne hhops hname
  have hid : Json.stringLength u.text = 36 := by
    rw [Json.stringLength_plain (plain_text u),length_text]
  rw [byteLength_frameJson,stringLength_envelope,hattrs,hid]
  omega

/-! The sender. -/

namespace Reachable
variable {m : Machine} {config : Config} {peer : PeerRecord} (r : Reachable m config peer)

/-- The hop chain that is written. -/
def chain (hops : List Str) : List Str := extendHops peer.kind r.own hops

/-- The content of the frame. -/
def content (hops : List Str) (body : Str) : Str :=
  envelope (attributes (tagPairs (str "uds:" ++ config.socket) (r.chain hops)
    (senderName m config false) r.mode)) (rstrip body)

def text (u : Uuid) (hops : List Str) (body : Str) : Str :=
  Json.dumps (frameJson u.text (r.content hops body) (str "uds:" ++ config.socket))

/-- The bytes of the frame: 258, the sender's address twice, 25 for a hop, the sender's name and mode,
and the text with its escapes. -/
def wireSize (hops : List Str) (body : Str) : ℕ :=
  2*Json.stringLength (str "uds:" ++ config.socket) + 25*(r.chain hops).length +
    (senderName m config false).length + r.mode.text.length + Json.stringLength (rstrip body) + 258

variable {hops : List Str} {body : Str}

lemma chain_isHop (hhops : ∀ h ∈ hops, isHop h = true) : ∀ h ∈ r.chain hops, isHop h = true :=
  extendHops_isHop _ (ownHop_isHop r.own_eq) hhops

lemma chain_ne_nil : r.chain hops ≠ [] := by
  unfold chain extendHops
  split_ifs with h
  · simp
  · rintro rfl
    simp at h

lemma chain_length (hlen : hops.length ≤ 31) : (r.chain hops).length ≤ 32 := by
  unfold chain extendHops
  split_ifs
  · rw [List.length_append,List.length_singleton]
    omega
  · omega

lemma byteLength_text (u : Uuid) (hhops : ∀ h ∈ hops, isHop h = true) :
    byteLength (r.text u hops body) = r.wireSize hops body :=
  byteLength_frame r.mode u r.chain_ne_nil (r.chain_isHop hhops) (senderName_inModel m config)

end Reachable

lemma scalar_attributes {pairs : List (Str × Str)} (h : ∀ kv ∈ pairs, Scalar kv.1 ∧ Scalar kv.2) :
    Scalar (attributes pairs) := by
  intro c hc
  rcases mem_join hc with rfl | ⟨p,hp,hcp⟩
  · decide
  · obtain ⟨kv,hkv,rfl⟩ := List.mem_map.mp hp
    obtain ⟨hk,hv⟩ := h kv hkv
    have hattr : Scalar (attrText kv) := by simp [attrText,hk,hv]
    exact hattr c hcp

lemma scalar_join {hops : List Str} (h : ∀ x ∈ hops, Scalar x) : Scalar (join (ofChar ',') hops) := by
  intro c hc
  rcases mem_join hc with rfl | ⟨p,hp,hcp⟩
  · decide
  · exact h p hp c hcp

namespace Reachable
variable {m : Machine} {config : Config} {peer : PeerRecord} (r : Reachable m config peer)
  {hops : List Str} {body : Str}

lemma scalar_text (u : Uuid) (hhops : ∀ h ∈ hops, isHop h = true) (hsocket : Scalar config.socket)
    (hbody : Scalar body) : Scalar (r.text u hops body) := by
  have haddress : Scalar (str "uds:" ++ config.socket) := by simp [hsocket]
  have hname : Scalar (senderName m config false) :=
    scalar_of_plain fun c hc => plain_of_inModel (senderName_inModel m config c hc)
  have hchain : Scalar (join (ofChar ',') (r.chain hops)) :=
    scalar_join (scalar_of_isHop (r.chain_isHop hhops))
  have hattrs : Scalar (attributes (tagPairs (str "uds:" ++ config.socket) (r.chain hops)
      (senderName m config false) r.mode)) := by
    refine scalar_attributes fun kv hkv => ?_
    simp only [tagPairs,if_neg r.chain_ne_nil,List.mem_cons,List.mem_append,List.not_mem_nil,
      or_false] at hkv
    rcases hkv with rfl | rfl | rfl | rfl
    · exact ⟨scalar_str _,haddress⟩
    · exact ⟨scalar_str _,hchain⟩
    · exact ⟨scalar_str _,hname⟩
    · exact ⟨scalar_str _,scalar_modeText _⟩
  have hstrip : Scalar (rstrip body) := scalar_of_subset (rstrip_isPrefix body).subset hbody
  have hopen : Scalar openTag := scalar_str _
  have hclose : Scalar closeTag := scalar_str _
  have hcontent : Scalar (r.content hops body) := by
    simp [content,envelope,hopen,hattrs,hstrip,hclose]
  simp [text,frameJson,Json.scalar_dumps_obj,PeerChat.scalar_text,hcontent,haddress]

/-- The outcome rests on the size of the frame alone. -/
lemma outbound_eq {U : Interp} (u : Uuid) (hhops : ∀ h ∈ hops, isHop h = true)
    (hlen : hops.length ≤ 31) (hsocket : Scalar config.socket) (hbody : Scalar body)
    (hvisible : strip body ≠ []) (hmarker : nestedMarker U body = false) :
    outbound U m config peer body u.text hops false =
      if MAX_LINE < r.wireSize hops body then .error (valueError "Outgoing frame exceeds size limit")
      else .ok (r.endpoint,(r.text u hops body).flatMap Utf8.encodeChar ++ [10]) := by
  have hscalar := r.scalar_text u hhops hsocket hbody
  have hnl : isSurrogate (ofChar '\n') = false := by decide
  have hdata : encodeText (r.text u hops body ++ [ofChar '\n']) =
      .ok ((r.text u hops body).flatMap Utf8.encodeChar ++ [10]) := by
    have hten : ([ofChar '\n'] : Str).flatMap Utf8.encodeChar = [10] := by decide
    rw [encodeText,encode_of_scalar (by simp [hscalar,hnl]),List.flatMap_append,hten]
  have hsize : ((r.text u hops body).flatMap Utf8.encodeChar).length = r.wireSize hops body :=
    r.byteLength_text u hhops
  have hchain := r.chain_length hlen
  simp only [text,content,chain] at hdata hsize hchain ⊢
  simp only [outbound,bind,Except.bind,r.endpoint_eq,r.verified,hvisible,hmarker,statedMode,r.mode_eq,
    r.own_eq,if_false,false_or,Bool.false_eq_true,false_and,not_lt.mpr hchain,hdata,
    List.length_append,List.length_singleton,Nat.add_sub_cancel,hsize,r.connects,throw,throwThe,
    MonadExceptOf.throw]

/-- A frame within the limit, as the receiver's proofs have it. -/
def sent {U : Interp} (u : Uuid) (hhops : ∀ h ∈ hops, isHop h = true) (hlen : hops.length ≤ 31)
    (hsocket : Scalar config.socket) (hbody : Scalar body) (hvisible : strip body ≠ [])
    (hmarker : nestedMarker U body = false) (hsize : r.wireSize hops body ≤ MAX_LINE) :
    Sent U m config peer body u.text hops
      ((r.text u hops body).flatMap Utf8.encodeChar ++ [10]) where
  mode := r.mode
  own := r.own
  mode_eq := r.mode_eq
  own_eq := r.own_eq
  body_ne := hvisible
  body_marker := hmarker
  hops_le := r.chain_length hlen
  data_eq := by
    have hnl : isSurrogate (ofChar '\n') = false := by decide
    have hten : ([ofChar '\n'] : Str).flatMap Utf8.encodeChar = [10] := by decide
    have hscalar := r.scalar_text u hhops hsocket hbody
    have henc := encode_of_scalar (s := r.text u hops body ++ [ofChar '\n']) (by simp [hscalar,hnl])
    rw [List.flatMap_append,hten] at henc
    exact henc
  data_le := by
    have hlength : ((r.text u hops body).flatMap Utf8.encodeChar).length = r.wireSize hops body :=
      r.byteLength_text u hhops
    rw [List.length_append,List.length_singleton,Nat.add_sub_cancel,hlength]
    exact hsize

end Reachable

/-- An advisory's beginning does not end in white space, so stripping keeps it. -/
lemma notice_rstrip {body : Str} (h : NOTICE <+: body) : NOTICE <+: rstrip body := by
  obtain ⟨spaces,hsplit,hspaces⟩ := rstrip_append_spaces body
  rcases le_total NOTICE.length (rstrip body).length with hle | hle
  · exact List.prefix_of_prefix_length_le h (rstrip_isPrefix body) hle
  · obtain ⟨t,ht⟩ := List.prefix_of_prefix_length_le (rstrip_isPrefix body) h hle
    by_cases hnil : t = []
    · rw [hnil,List.append_nil] at ht
      rw [ht]
    · -- the last character of the beginning would be one of those stripped
      have hpre : rstrip body ++ t <+: rstrip body ++ spaces := by
        rw [ht,← hsplit]
        exact h
      have hsub : t <+: spaces := (List.prefix_append_right_inj _).mp hpre
      have hlast : NOTICE.getLast? = t.getLast? := by
        rw [← ht,List.getLast?_append_of_ne_nil _ hnil]
      have hspace := hspaces _ (hsub.subset (List.getLast_mem hnil))
      have hE : NOTICE.getLast? = some (ofChar 'E') := by decide +kernel
      rw [hE,List.getLast?_eq_getLast_of_ne_nil hnil,Option.some.injEq] at hlast
      rw [← hlast] at hspace
      contradiction

lemma admits {U : Interp} {body : Str} (h : refusesBody U body = false) :
    strip body ≠ [] ∧ nestedMarker U body = false ∧ Scalar body := by
  simp only [refusesBody,Bool.or_eq_false_iff,decide_eq_false_iff_not] at h
  obtain ⟨⟨hvisible,hmarker⟩,hsize⟩ := h
  refine ⟨hvisible,hmarker,?_⟩
  rw [← encode_isSome_iff]
  split at hsize
  · rename_i bytes hbytes
    rw [hbytes]
    rfl
  · contradiction

lemma scalar_of_validSocketPath {limit : ℕ} {path : Str} (h : validSocketPath limit path = true) :
    Scalar path := by
  obtain ⟨bytes,hbytes,-⟩ := (Option.any_eq_true _ _).mp h
  rw [← encode_isSome_iff,hbytes]
  rfl

/-- A text that `send` admits reaches a peer, as far as that depends on the text, exactly if it does
not begin like an advisory and its frame, in which it is escaped, stays within the limit. -/
theorem admitted_delivered_iff (U : Interp) {m : Machine} {config : Config} {peer : PeerRecord}
    (r : Reachable m config peer) {body : Str} (hadmits : refusesBody U body = false) (u : Uuid)
    {hops : List Str} (hhops : ∀ h ∈ hops, isHop h = true) (hlen : hops.length ≤ 31) {limit : ℕ}
    (hpath : validSocketPath limit config.socket = true)
    (hsocket : ∀ c ∈ config.socket, inValue c = true) :
    (∃ line, outbound U m config peer body u.text hops false = .ok (r.endpoint,line ++ [10]) ∧
      (decodeFrame U line (str "uds:" ++ config.socket)).isSome = true) ↔
    ¬ NOTICE <+: body ∧ r.wireSize hops body ≤ MAX_LINE := by
  obtain ⟨hvisible,hmarker,hbody⟩ := admits hadmits
  have hscalar := scalar_of_validSocketPath hpath
  have hout := r.outbound_eq u hhops hlen hscalar hbody hvisible hmarker
  by_cases hsize : r.wireSize hops body ≤ MAX_LINE
  · rw [if_neg (by omega)] at hout
    let s := r.sent u hhops hlen hscalar hbody hvisible hmarker hsize
    have hline : Utf8.encode (r.text u hops body) =
        some ((r.text u hops body).flatMap Utf8.encodeChar) :=
      encode_of_scalar (r.scalar_text u hhops hscalar hbody)
    have hlength : ((r.text u hops body).flatMap Utf8.encodeChar).length ≤ MAX_LINE := by
      have hbytes : byteLength (r.text u hops body) = r.wireSize hops body :=
        r.byteLength_text u hhops
      unfold byteLength at hbytes
      omega
    have hdec := s.decodeFrame_line hhops hsocket hlength hline
    have hiff : (∃ line, outbound U m config peer body u.text hops false =
        .ok (r.endpoint,line ++ [10]) ∧
        (decodeFrame U line (str "uds:" ++ config.socket)).isSome = true) ↔
        (decodeFrame U ((r.text u hops body).flatMap Utf8.encodeChar)
          (str "uds:" ++ config.socket)).isSome = true := by
      rw [hout]
      simp
    rw [hiff,and_iff_left hsize]
    constructor
    · intro hsome hnotice
      obtain ⟨f,hf⟩ := Option.isSome_iff_exists.mp hsome
      have hmsg := hdec.symm.trans hf
      obtain ⟨_,_,_,hderives,-⟩ :=
        derives_of_decodeMessage (s.matchEnvelope_eq hhops hsocket) hmsg
      exact hderives.no_notice (notice_rstrip hnotice)
    · intro hnotice
      have hstart : startswith body NOTICE = false := by
        rw [startswith,← Bool.not_eq_true,List.isPrefixOf_iff_prefix]
        exact hnotice
      have hmsg := hdec.trans (s.decodeMessage_eq hhops hsocket hstart)
      rw [Sent.address] at hmsg
      rw [hmsg]
      rfl
  · rw [if_pos (by omega)] at hout
    refine iff_of_false ?_ fun h => hsize h.2
    intro h
    obtain ⟨line,hok,-⟩ := h
    rw [hout] at hok
    contradiction

lemma sampleReachable_verified : verifySocket sampleMachine ⟨41,str "41:9",str "/run/peer.sock"⟩ = .ok () := by
  decide +kernel

/-- The sender and the peer of the round trip's example. -/
def sampleReachable : Reachable sampleMachine sampleConfig samplePeer where
  endpoint := ⟨41,str "41:9",str "/run/peer.sock"⟩
  mode := .prompting
  own := (Sha256.hexdigest ((str "codex:" ++ sampleConfig.thread).flatMap Utf8.encodeChar)).take 24
  endpoint_eq := rfl
  verified := sampleReachable_verified
  mode_eq := by decide +kernel
  own_eq := by decide +kernel
  connects := rfl

lemma sampleSocket_valid : validSocketPath 108 sampleConfig.socket = true := by decide +kernel

lemma sampleSocket_inValue : ∀ c ∈ sampleConfig.socket, inValue c = true :=
  all_str _ (by decide +kernel)

theorem admitted_delivered_iff_sample : ∃ line,
    outbound .ascii sampleMachine sampleConfig samplePeer sampleBody sampleId.text [] false =
      .ok (sampleReachable.endpoint,line ++ [10]) ∧
    (decodeFrame .ascii line (str "uds:" ++ sampleConfig.socket)).isSome = true :=
  (admitted_delivered_iff .ascii sampleReachable (by decide +kernel) sampleId (by simp) (by simp)
    sampleSocket_valid sampleSocket_inValue).mpr ⟨by decide +kernel,by decide +kernel⟩

/-- A text of quotes, each of which is escaped. -/
def quotes (n : ℕ) : Str := List.replicate n Json.quote

lemma mem_quotes {n : ℕ} {c : CodePoint} (h : c ∈ quotes n) : c = Json.quote :=
  List.eq_of_mem_replicate h

lemma rstrip_quotes (n : ℕ) : rstrip (quotes n) = quotes n := by
  unfold rstrip
  rw [List.rdropWhile_eq_self_iff]
  intro hne
  rw [mem_quotes (List.getLast_mem hne)]
  decide

lemma strip_quotes {n : ℕ} (h : 0 < n) : strip (quotes n) ≠ [] := by
  rw [ne_eq,strip_eq_nil_iff]
  intro hall
  exact absurd (hall Json.quote (List.mem_replicate.mpr ⟨by omega,rfl⟩)) (by decide)

lemma nestedMarker_quotes (U : Interp) (n : ℕ) : nestedMarker U (quotes n) = false := by
  rw [nestedMarker,List.any_eq_false]
  intro s hs
  cases s with
  | nil => simp [markerAt]
  | cons c s =>
    have hc : c = Json.quote := mem_quotes (((List.mem_tails _ _).mp hs).subset (by simp))
    have hne : (Json.quote == ofChar '<') = false := by decide
    simp [markerAt,hc,hne]

lemma scalar_quotes (n : ℕ) : Scalar (quotes n) := by
  intro c hc
  rw [mem_quotes hc]
  decide

lemma byteLength_quotes (n : ℕ) : byteLength (quotes n) = n := by
  have hone : (Utf8.encodeChar Json.quote).length = 1 := Json.encodeChar_one (by decide)
  induction n with
  | zero => rfl
  | succ n ih =>
    change byteLength (Json.quote :: quotes n) = n+1
    rw [byteLength_cons,hone,ih]
    omega

lemma quotes_admitted (U : Interp) {n : ℕ} (hpos : 0 < n) (hle : n ≤ MAX_LINE-1024) :
    refusesBody U (quotes n) = false := by
  have hlength : ((quotes n).flatMap Utf8.encodeChar).length ≤ MAX_LINE-1024 := by
    change byteLength (quotes n) ≤ MAX_LINE-1024
    rw [byteLength_quotes]
    exact hle
  simp only [refusesBody,encode_of_scalar (scalar_quotes n),nestedMarker_quotes,
    Bool.or_eq_false_iff,decide_eq_false_iff_not]
  exact ⟨⟨strip_quotes hpos,trivial⟩,not_lt.mpr hlength⟩

lemma quotes_refused (U : Interp) {n : ℕ} (hpos : 0 < n) (hn : MAX_LINE < 2*n) :
    outbound U sampleMachine sampleConfig samplePeer (quotes n) sampleId.text [] false =
      .error (valueError "Outgoing frame exceeds size limit") := by
  have hescaped : byteLength (Json.escapeChar Json.quote) = 2 := by decide
  have hsize : MAX_LINE < sampleReachable.wireSize [] (quotes n) := by
    rw [Reachable.wireSize,rstrip_quotes,quotes,Json.stringLength_replicate,hescaped]
    omega
  rw [sampleReachable.outbound_eq sampleId (by simp) (by simp)
    (scalar_of_validSocketPath sampleSocket_valid) (scalar_quotes n) (strip_quotes hpos)
    (nestedMarker_quotes U n),if_pos hsize]

/-- A text about an advisory. -/
def aboutNotice : Str := str "PEER CHAT DELIVERY NOTICE: what is it?"

/-- Both texts are admitted. The first is refused by the sender for its size, the second dropped by
the receiver. -/
theorem admitted_undelivered :
    (refusesBody .ascii (quotes 40000) = false ∧
      outbound .ascii sampleMachine sampleConfig samplePeer (quotes 40000) sampleId.text [] false =
        .error (valueError "Outgoing frame exceeds size limit")) ∧
    refusesBody .ascii aboutNotice = false ∧ ∃ line,
      outbound .ascii sampleMachine sampleConfig samplePeer aboutNotice sampleId.text [] false =
        .ok (sampleReachable.endpoint,line ++ [10]) ∧
      decodeFrame .ascii line (str "uds:" ++ sampleConfig.socket) = none := by
  have hvisible : strip aboutNotice ≠ [] := by decide +kernel
  have hmarker : nestedMarker .ascii aboutNotice = false := by decide +kernel
  have hsize : ¬ MAX_LINE < sampleReachable.wireSize [] aboutNotice := by decide +kernel
  have hout : outbound .ascii sampleMachine sampleConfig samplePeer aboutNotice sampleId.text []
      false = _ := sampleReachable.outbound_eq sampleId (by simp) (by simp)
    (scalar_of_validSocketPath sampleSocket_valid) (scalar_str _) hvisible hmarker
  rw [if_neg hsize] at hout
  refine ⟨⟨quotes_admitted .ascii (by decide) (by decide),quotes_refused .ascii (by decide)
    (by decide)⟩,by decide +kernel,_,hout,?_⟩
  decide +kernel

end PeerChat
