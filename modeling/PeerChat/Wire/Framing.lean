import PeerChat.Wire.Frame

/-! The lines that a connection yields do not depend on how its stream is cut into reads. -/
namespace PeerChat.Wire
open Python

/-- The terminated segments of a stream, and its unterminated tail. -/
structure Framed (stream : Bytes) (segments : List Bytes) (tail : Bytes) : Prop where
  stream_eq : stream = (segments.map (· ++ [10])).flatten ++ tail
  segments_line : ∀ s ∈ segments, 10 ∉ s
  tail_line : 10 ∉ tail

lemma splitOn_of_not_mem {xs : Bytes} (h : 10 ∉ xs) : xs.splitOn 10 = [xs] := by
  have : (([10] : Bytes).intercalate [xs]).splitOn 10 = [xs] :=
    List.splitOn_intercalate 10 (by simpa using h) (by simp)
  simpa using this

/-- Splitting at the newlines is the only way to frame a stream. -/
lemma Framed.splitOn_eq {stream tail : Bytes} {segments : List Bytes}
    (h : Framed stream segments tail) : stream.splitOn 10 = segments ++ [tail] := by
  obtain ⟨heq,hlines,htail⟩ := h
  induction segments generalizing stream with
  | nil =>
    rw [heq]
    exact splitOn_of_not_mem htail
  | cons s segments ih =>
    have hs : stream = s ++ 10 :: ((segments.map (· ++ [10])).flatten ++ tail) := by
      rw [heq]
      simp
    rw [hs,List.splitOn_append_cons_self_of_not_mem (hlines s (List.mem_cons_self ..)),
      ih rfl fun t ht => hlines t (List.mem_cons_of_mem _ ht)]
    rfl

lemma exists_framed (stream : Bytes) : ∃ segments tail, Framed stream segments tail := by
  induction stream with
  | nil => exact ⟨[],[],rfl,by simp,by simp⟩
  | cons x stream ih =>
    obtain ⟨segments,tail,heq,hlines,htail⟩ := ih
    by_cases hx : x = 10
    · refine ⟨[] :: segments,tail,?_,?_,htail⟩
      · rw [heq,hx]
        simp
      · intro s hs
        rcases List.mem_cons.mp hs with h | h
        · simp [h]
        · exact hlines s h
    · have hx' : (10 : UInt8) ≠ x := fun h => hx h.symm
      cases segments with
      | nil =>
        refine ⟨[],x::tail,?_,by simp,?_⟩
        · rw [heq]
          rfl
        · simp [hx',htail]
      | cons s segments =>
        refine ⟨(x::s) :: segments,tail,?_,?_,htail⟩
        · rw [heq]
          simp
        · intro t ht
          rcases List.mem_cons.mp ht with h | h
          · rw [h,List.mem_cons,not_or]
            exact ⟨hx',hlines s (List.mem_cons_self ..)⟩
          · exact hlines t (List.mem_cons_of_mem _ h)

lemma Framed.unique {stream tail tail' : Bytes} {segments segments' : List Bytes}
    (h : Framed stream segments tail) (h' : Framed stream segments' tail') :
    segments = segments' ∧ tail = tail' := by
  have heq := h.splitOn_eq.symm.trans h'.splitOn_eq
  obtain ⟨hs,ht⟩ := List.append_inj' heq rfl
  exact ⟨hs,List.singleton_injective ht⟩

/-- A stream is framed on from its unterminated tail. -/
lemma Framed.append {xs ys tail tail' : Bytes} {segments segments' : List Bytes}
    (h : Framed xs segments tail) (h' : Framed (tail ++ ys) segments' tail') :
    Framed (xs ++ ys) (segments ++ segments') tail' := by
  refine ⟨?_,?_,h'.tail_line⟩
  · rw [h.stream_eq,List.append_assoc,h'.stream_eq]
    simp
  · intro s hs
    rcases List.mem_append.mp hs with hs | hs
    · exact h.segments_line s hs
    · exact h'.segments_line s hs

/-- No part of the stream is too long. -/
def WithinLimit (segments : List Bytes) (tail : Bytes) : Prop :=
  ∀ s ∈ segments ++ [tail], s.length ≤ MAX_LINE

instance (segments : List Bytes) (tail : Bytes) : Decidable (WithinLimit segments tail) :=
  inferInstanceAs (Decidable (∀ s ∈ segments ++ [tail], s.length ≤ MAX_LINE))

lemma not_withinLimit {segments : List Bytes} {tail : Bytes} :
    ¬ WithinLimit segments tail ↔ ∃ s ∈ segments ++ [tail], MAX_LINE < s.length := by
  unfold WithinLimit
  simp only [not_forall,not_le,exists_prop]

/-- An open part that goes on is not shorter than before. -/
lemma Framed.length_open {buffer more tail : Bytes} {segments : List Bytes}
    (h : Framed (buffer ++ more) segments tail) (hb : 10 ∉ buffer) (hfits : WithinLimit segments tail) :
    buffer.length ≤ MAX_LINE := by
  have heq := h.stream_eq
  cases segments with
  | nil =>
    have htail := hfits tail (by simp)
    have hlen := congrArg List.length heq
    simp only [List.map_nil,List.flatten_nil,List.nil_append,List.length_append] at hlen
    omega
  | cons s segments =>
    have hs := hfits s (by simp)
    have hp : buffer <+: s ++ 10 :: ((segments.map (· ++ [10])).flatten ++ tail) :=
      ⟨more,by rw [heq]; simp⟩
    have hstart : s <+: s ++ 10 :: ((segments.map (· ++ [10])).flatten ++ tail) :=
      List.prefix_append ..
    rcases List.prefix_or_prefix_of_prefix hp hstart with h₁ | h₂
    · exact h₁.length_le.trans hs
    · -- the buffer would reach over the newline
      obtain ⟨r,hr⟩ := h₂
      cases r with
      | nil =>
        rw [List.append_nil] at hr
        exact hr ▸ hs
      | cons c r =>
        obtain ⟨m,hm⟩ := hp
        rw [← hr,List.append_assoc,List.append_cancel_left_eq,List.cons_append,List.cons.injEq] at hm
        refine absurd ?_ hb
        rw [← hr,← hm.1]
        simp

/-- One read. -/
lemma Framed.feed_eq {buffer data tail : Bytes} {segments : List Bytes}
    (h : Framed (buffer ++ data) segments tail) : feed buffer data =
      if WithinLimit segments tail then some (segments.filter (· ≠ []),tail) else none := by
  unfold feed
  rw [h.splitOn_eq]
  have hany : ((segments ++ [tail]).any fun s => MAX_LINE < s.length) = true ↔
      ¬ WithinLimit segments tail := by
    rw [List.any_eq_true,not_withinLimit]
    simp only [decide_eq_true_eq]
  by_cases hfits : WithinLimit segments tail
  · rw [if_pos hfits,if_neg (by rw [hany]; exact not_not.mpr hfits)]
    simp
  · rw [if_neg hfits,if_pos (hany.mpr hfits)]

/-- Any number of reads, from an open part. -/
lemma Framed.feedAll_eq (chunks : List Bytes) {buffer tail : Bytes} {segments : List Bytes}
    (h : Framed (buffer ++ chunks.flatten) segments tail) (hb : 10 ∉ buffer)
    (hlen : buffer.length ≤ MAX_LINE) : feedAll buffer chunks =
      if WithinLimit segments tail then some (segments.filter (· ≠ []),tail) else none := by
  induction chunks generalizing buffer segments with
  | nil =>
    have hopen : Framed (buffer ++ []) [] buffer := ⟨by simp,by simp,hb⟩
    obtain ⟨rfl,rfl⟩ := hopen.unique h
    have hfits : WithinLimit [] buffer := by simpa [WithinLimit] using hlen
    rw [if_pos hfits]
    rfl
  | cons chunk chunks ih =>
    obtain ⟨first,rest,hfirst⟩ := exists_framed (buffer ++ chunk)
    obtain ⟨later,last,hlater⟩ := exists_framed (rest ++ chunks.flatten)
    rw [List.flatten_cons,← List.append_assoc] at h
    obtain ⟨rfl,rfl⟩ := (hfirst.append hlater).unique h
    unfold feedAll
    rw [hfirst.feed_eq]
    by_cases hfits : WithinLimit first rest
    · have hrest : rest.length ≤ MAX_LINE := hfits rest (by simp)
      rw [if_pos hfits]
      simp only [Option.bind_eq_bind,Option.bind_some]
      rw [ih hlater hfirst.tail_line hrest]
      have hboth : WithinLimit (first ++ later) last ↔ WithinLimit later last := by
        unfold WithinLimit
        constructor
        · intro hall s hs
          exact hall s (by simp only [List.append_assoc,List.mem_append]; exact Or.inr (List.mem_append.mp hs))
        · intro hall s hs
          rw [List.append_assoc,List.mem_append] at hs
          rcases hs with hs | hs
          · exact hfits s (List.mem_append_left _ hs)
          · exact hall s hs
      by_cases hl : WithinLimit later last
      · rw [if_pos hl,if_pos (hboth.mpr hl)]
        simp
      · rw [if_neg hl,if_neg (fun h => hl (hboth.mp h))]
        rfl
    · rw [if_neg hfits]
      have hnot : ¬ WithinLimit (first ++ later) last := by
        intro hall
        apply hfits
        intro s hs
        rcases List.mem_append.mp hs with hs | hs
        · exact hall s (by simp [hs])
        · obtain rfl := List.mem_singleton.mp hs
          refine hlater.length_open hfirst.tail_line fun t ht => hall t ?_
          rw [List.append_assoc]
          exact List.mem_append_right _ ht
      rw [if_neg hnot]
      rfl

/-- After any number of reads of any stream, cut in any way: a read has raised exactly if some part of
what has come in, terminated or open, is too long; otherwise the lines so far are the non-empty
terminated segments, in their order, and the buffer is the open tail. -/
theorem framing_independent (chunks : List Bytes) (k : ℕ) : ∃ segments tail,
    Framed (chunks.take k).flatten segments tail ∧
    (feedAll [] (chunks.take k) = none ↔ ∃ s ∈ segments ++ [tail], MAX_LINE < s.length) ∧
    ∀ lines buffer, feedAll [] (chunks.take k) = some (lines,buffer) →
      lines = segments.filter (· ≠ []) ∧ buffer = tail := by
  obtain ⟨segments,tail,h⟩ := exists_framed (chunks.take k).flatten
  have hstart : Framed ([] ++ (chunks.take k).flatten) segments tail := h
  have heq := hstart.feedAll_eq (chunks.take k) (by simp) (by simp)
  refine ⟨segments,tail,h,?_,?_⟩
  · rw [heq,← not_withinLimit]
    split_ifs with hfits <;> simp [hfits]
  · intro lines buffer hsome
    rw [heq] at hsome
    split_ifs at hsome
    cases hsome
    exact ⟨rfl,rfl⟩

end PeerChat.Wire
