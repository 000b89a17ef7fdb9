import PeerChat.Wire.Framing
import PeerChat.Wire.Grammar

/-! What a receiver can make of the bytes of a sender, however much of them it gets: nothing, or a
message with the sender's own id and hops. -/
namespace PeerChat.Wire
open Python

/-- The part of one line that has come in yields that line or none. -/
lemma lines_of_prefix {line rest : Bytes} {chunks lines : List Bytes} (hn : 10 ∉ line)
    (hp : chunks.flatten <+: line ++ [10]) (h : feedAll [] chunks = some (lines,rest)) :
    ∀ x ∈ lines, x = line := by
  have hframed : ∃ segments tail, Framed ([] ++ chunks.flatten) segments tail ∧
      ∀ x ∈ segments, x = line := by
    obtain hall | hpart := List.prefix_concat_iff.mp hp
    · exact ⟨[line],[],⟨by simp [hall],by simpa using hn,by simp⟩,by simp⟩
    · exact ⟨[],chunks.flatten,⟨rfl,by simp,fun hm => hn (hpart.subset hm)⟩,by simp⟩
  obtain ⟨segments,tail,hf,hline⟩ := hframed
  rw [hf.feedAll_eq chunks (by simp) (by simp)] at h
  split_ifs at h
  cases h
  intro x hx
  exact hline x (List.mem_of_mem_filter hx)

/-- No line that is read is too long. -/
lemma feedAll_length_le {chunks lines : List Bytes} {rest : Bytes}
    (h : feedAll [] chunks = some (lines,rest)) : ∀ x ∈ lines, x.length ≤ MAX_LINE := by
  obtain ⟨segments,tail,hf⟩ := exists_framed ([] ++ chunks.flatten)
  rw [hf.feedAll_eq chunks (by simp) (by simp)] at h
  split_ifs at h with hfits
  cases h
  intro x hx
  exact hfits x (List.mem_append_left _ (List.mem_of_mem_filter hx))

namespace Sent
variable {U : Interp} {m : Machine} {config : Config} {peer : PeerRecord} {body : Str}
  {hops : List Str} {data line : Bytes} {u : Uuid} {expected : Str} {f : Frame}

/-- A line of this sender is decoded for the sender's address only, and by its envelope. -/
lemma decodeFrame_some (s : Sent U m config peer body u.text hops data)
    (hlen : line.length ≤ MAX_LINE)
    (hline : Utf8.encode (Json.dumps (frameJson u.text
      (envelope (attributes s.pairs) (rstrip body)) (address config))) = some line)
    (h : decodeFrame U line expected = some f) : expected = address config ∧
      ∃ attrs text, matchEnvelope (envelope (attributes s.pairs) (rstrip body)) = some (attrs,text) ∧
        decodeMessage U expected u.text attrs text = some f := by
  have hload : U.loads line = some (frameJson u.text
      (envelope (attributes s.pairs) (rstrip body)) (address config)) :=
    Interp.loads_eq (Json.loads_encode_dumps rfl hline (a := Json.chr 123) (b := Json.quote) rfl
      (by decide) (by decide)) (reads_frameJson U _ _ _)
  rw [decodeFrame,if_neg (by omega),hload] at h
  set content := envelope (attributes s.pairs) (rstrip body)
  have hfrom : strAt "from" (frameJson u.text content (address config)) = some (address config) :=
    rfl
  have htype : strAt "type" (frameJson u.text content (address config)) = some (str "user") := rfl
  have hid : strAt "msg_id" (frameJson u.text content (address config)) = some u.text := rfl
  have hmessage : (frameJson u.text content (address config)).get (str "message") =
      some (.obj [(str "role",.str (str "user")),(str "content",.str content)]) := rfl
  have hcontent : strAt "content" (.obj [(str "role",.str (str "user")),
      (str "content",.str content)]) = some content := rfl
  have hrole : strAt "role" (.obj [(str "role",.str (str "user")),
      (str "content",.str content)]) = some (str "user") := rfl
  have hctl : ¬ (some (str "user") = some (str "control")) := by decide
  by_cases he : expected = address config
  · refine ⟨he,?_⟩
    simp only [Option.bind_eq_bind,Option.bind_some,hfrom,htype,hid,hmessage,hcontent,hrole,hctl,he,
      ne_eq,not_true_eq_false,if_false,false_and,and_true,validId_text,if_true] at h
    obtain ⟨⟨attrs,text⟩,henv,hdecode⟩ := Option.bind_eq_some_iff.mp h
    exact ⟨attrs,text,henv,he ▸ hdecode⟩
  · simp only [Option.bind_eq_bind,Option.bind_some,hfrom,ne_eq,Option.some.injEq,Ne.symm he,
      not_false_eq_true,if_true] at h
    cases h

/-- Whoever decodes a line of this sender, finds the sender's message in it. -/
theorem decodeFrame_message (s : Sent U m config peer body u.text hops data)
    (hhops : ∀ h ∈ hops, isHop h = true) (hlen : line.length ≤ MAX_LINE)
    (hline : Utf8.encode (Json.dumps (frameJson u.text
      (envelope (attributes s.pairs) (rstrip body)) (address config))) = some line)
    (h : decodeFrame U line expected = some f) :
    f = .message u.text (rstrip body) s.mode (extendHops peer.kind s.own hops) := by
  obtain ⟨rfl,attrs,text,henv,hdecode⟩ := s.decodeFrame_some hlen hline h
  -- the address is a value of the tag that has been read
  obtain ⟨read,mode,found,hderives,-⟩ := derives_of_decodeMessage henv hdecode
  have hsocket : ∀ c ∈ config.socket, inValue c = true := by
    intro c hc
    obtain ⟨before,rest,rfl,-⟩ := List.lookup_eq_some_iff.mp hderives.sender
    exact (hderives.wellFormed (str "from",address config) (by simp)).2.2 c
      (List.mem_append_right _ hc)
  rw [s.matchEnvelope_eq hhops hsocket] at henv
  cases henv
  have hread : readAttributes (attributes s.pairs) = some s.pairs :=
    readAttributes_attributes (s.pairs_wellFormed hhops hsocket) (tagPairs_nodup ..)
  obtain ⟨-,hmode,hsplit⟩ := tagPairs_lookup (address config) (senderName m config false) s.mode
    (s.chain_isHop hhops)
  simp only [decodeMessage,hread,Option.bind_eq_bind,Option.bind_some] at hdecode
  rw [pairs,hmode,Option.bind_some,ofText_text,Option.bind_some,hsplit] at hdecode
  split_ifs at hdecode
  cases hdecode
  rfl

/-- The id and the hops of it. -/
theorem decodeFrame_hops (s : Sent U m config peer body u.text hops data)
    (hhops : ∀ h ∈ hops, isHop h = true) (hlen : line.length ≤ MAX_LINE)
    (hline : Utf8.encode (Json.dumps (frameJson u.text
      (envelope (attributes s.pairs) (rstrip body)) (address config))) = some line)
    (h : decodeFrame U line expected = some f) :
    ∃ text mode, f = .message u.text text mode (extendHops peer.kind s.own hops) :=
  ⟨_,_,s.decodeFrame_message hhops hlen hline h⟩

/-- A message that is decoded has the sender's id. -/
lemma decodeFrame_id (s : Sent U m config peer body u.text hops data) (hlen : line.length ≤ MAX_LINE)
    (hline : Utf8.encode (Json.dumps (frameJson u.text
      (envelope (attributes s.pairs) (rstrip body)) (address config))) = some line)
    (h : decodeFrame U line expected = some f) :
    ∃ text mode found, f = .message u.text text mode found := by
  obtain ⟨-,attrs,text,henv,hdecode⟩ := s.decodeFrame_some hlen hline h
  obtain ⟨-,mode,found,-,hf⟩ := derives_of_decodeMessage henv hdecode
  exact ⟨text,mode,found,hf⟩

/-! So it is for whoever reads any part of the bytes, in any pieces. -/

section
variable {chunks lines : List Bytes} {rest : Bytes} (hp : chunks.flatten <+: data)
  (hfeed : feedAll [] chunks = some (lines,rest)) (hmem : line ∈ lines)

include hp hfeed hmem in
/-- A line that is found is the one that has been written. -/
lemma carried_line {mid : Str} (s : Sent U m config peer body mid hops data) :
    line.length ≤ MAX_LINE ∧ Utf8.encode (Json.dumps (frameJson mid
      (envelope (attributes s.pairs) (rstrip body)) (address config))) = some line := by
  obtain ⟨own,hdata,hn,hlen,hline⟩ := s.exists_line
  rw [hdata] at hp
  obtain rfl := lines_of_prefix hn hp hfeed line hmem
  exact ⟨hlen,hline⟩

include hp hfeed hmem in
theorem carried_id (s : Sent U m config peer body u.text hops data)
    (h : decodeFrame U line expected = some f) :
    ∃ text mode found, f = .message u.text text mode found := by
  obtain ⟨hlen,hline⟩ := s.carried_line hp hfeed hmem
  exact s.decodeFrame_id hlen hline h

include hp hfeed hmem in
theorem carried_hops (s : Sent U m config peer body u.text hops data)
    (hhops : ∀ h ∈ hops, isHop h = true) (h : decodeFrame U line expected = some f) :
    ∃ text mode, f = .message u.text text mode (extendHops peer.kind s.own hops) := by
  obtain ⟨hlen,hline⟩ := s.carried_line hp hfeed hmem
  exact s.decodeFrame_hops hhops hlen hline h

include hp hfeed hmem in
theorem carried_message (s : Sent U m config peer body u.text hops data)
    (hhops : ∀ h ∈ hops, isHop h = true) (h : decodeFrame U line expected = some f) :
    f = .message u.text (rstrip body) s.mode (extendHops peer.kind s.own hops) := by
  obtain ⟨hlen,hline⟩ := s.carried_line hp hfeed hmem
  exact s.decodeFrame_message hhops hlen hline h

end
end Sent

/-- A message that is decoded has valid hops. -/
theorem decodeFrame_isHop {U : Interp} {raw : Bytes} {expected mid body : Str} {mode : Mode}
    {hops : List Str} (h : decodeFrame U raw expected = some (.message mid body mode hops)) :
    ∀ h ∈ hops, isHop h = true := by
  unfold decodeFrame at h
  split_ifs at h
  obtain ⟨frame,-,h⟩ := Option.bind_eq_some_iff.mp h
  split_ifs at h
  · -- a notice is no message
    simp only [decodeNotice,Option.bind_eq_bind,Option.bind_eq_some_iff] at h
    obtain ⟨_,-,_,-,_,-,h⟩ := h
    split_ifs at h
    cases h
  · simp only [decodeReceipt,Option.bind_eq_bind,Option.bind_eq_some_iff] at h
    obtain ⟨_,-,_,-,h⟩ := h
    split_ifs at h
    cases h
  · simp only [Option.bind_eq_bind,Option.bind_eq_some_iff] at h
    obtain ⟨_,-,_,-,content,-,⟨attrs,text⟩,henv,h⟩ := h
    split_ifs at h
    obtain ⟨pairs,mode',found,hderives,hf⟩ := derives_of_decodeMessage henv h
    cases hf
    exact List.all_eq_true.mp (chainOf_iff.mp hderives.chain).2.2

end PeerChat.Wire
