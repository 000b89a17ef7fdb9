import PeerChat.Python.Scalar

/-! How many bytes a text takes, by itself and inside a JSON string. -/
namespace Python

/-- The length of the UTF-8 form. -/
def byteLength (s : Str) : ℕ := (s.flatMap Utf8.encodeChar).length

@[simp] lemma byteLength_nil : byteLength [] = 0 := rfl

@[simp] lemma byteLength_cons (c : CodePoint) (s : Str) :
    byteLength (c::s) = (Utf8.encodeChar c).length + byteLength s := by simp [byteLength]

@[simp] lemma byteLength_append (s t : Str) : byteLength (s ++ t) = byteLength s + byteLength t := by
  simp [byteLength]

/-- A character takes four bytes at most. -/
lemma byteLength_le (s : Str) : byteLength s ≤ 4*s.length := by
  induction s with
  | nil => rfl
  | cons c s ih =>
    have hc : (Utf8.encodeChar c).length ≤ 4 := by
      dsimp only [Utf8.encodeChar]
      split_ifs <;> simp
    rw [byteLength_cons,List.length_cons]
    omega

lemma encode_of_scalar {s : Str} (h : Scalar s) : Utf8.encode s = some (s.flatMap Utf8.encodeChar) := by
  have hsome := (encode_isSome_iff s).mpr h
  unfold Utf8.encode at hsome ⊢
  split_ifs at hsome ⊢
  · contradiction
  · rfl

namespace Json

/-- The length of a text inside a JSON string, escapes included. -/
def stringLength (s : Str) : ℕ := byteLength (s.flatMap escapeChar)

@[simp] lemma stringLength_nil : stringLength [] = 0 := rfl

@[simp] lemma stringLength_cons (c : CodePoint) (s : Str) :
    stringLength (c::s) = byteLength (escapeChar c) + stringLength s := by simp [stringLength]

@[simp] lemma stringLength_append (s t : Str) :
    stringLength (s ++ t) = stringLength s + stringLength t := by simp [stringLength]

lemma stringLength_replicate (n : ℕ) (c : CodePoint) :
    stringLength (List.replicate n c) = n*byteLength (escapeChar c) := by
  induction n with
  | zero => simp
  | succ n ih =>
    rw [List.replicate_succ,stringLength_cons,ih]
    rw [Nat.add_mul,Nat.one_mul,Nat.add_comm]

lemma byteLength_dumpsStr (s : Str) : byteLength (dumpsStr s) = stringLength s + 2 := by
  have hq : (Utf8.encodeChar quote).length = 1 := by decide
  simp only [dumpsStr,byteLength_cons,byteLength_append,byteLength_nil,hq,stringLength]
  omega

lemma encodeChar_one {c : CodePoint} (h : c.val < 128) : (Utf8.encodeChar c).length = 1 := by
  simp [Utf8.encodeChar,h]

/-- A key, a value, and six characters between and around them. -/
def pairLength (p : Str × Json) : ℕ := stringLength p.1 + byteLength (dumps p.2) + 6

lemma byteLength_dumpsPairs (ps : List (Str × Json)) :
    byteLength (dumpsPairs ps) = (ps.map pairLength).sum + 1 := by
  have h : ∀ n (hn : n < 128), (Utf8.encodeChar ⟨n,by omega⟩).length = 1 :=
    fun n hn => encodeChar_one hn
  induction ps with
  | nil => simp [dumpsPairs,h]
  | cons p ps ih =>
    simp only [dumpsPairs,byteLength_cons,byteLength_append,byteLength_dumpsStr,ih,pairLength,
      List.map_cons,List.sum_cons,h 44 (by decide),h 32 (by decide),h 58 (by decide)]
    omega

lemma byteLength_dumps_obj (p : Str × Json) (ps : List (Str × Json)) :
    byteLength (dumps (.obj (p::ps))) = pairLength p + (ps.map pairLength).sum := by
  have h : ∀ n (hn : n < 128), (Utf8.encodeChar ⟨n,by omega⟩).length = 1 :=
    fun n hn => encodeChar_one hn
  simp only [dumps,byteLength_cons,byteLength_append,byteLength_dumpsStr,byteLength_dumpsPairs,
    pairLength,h 123 (by decide),h 58 (by decide),h 32 (by decide)]
  omega

/-- A character that stands for itself in one byte. -/
def isPlain (c : CodePoint) : Bool :=
  32 ≤ c.val && c.val < 128 && !(c == quote) && !(c == backslash)

lemma byteLength_escapeChar {c : CodePoint} (h : isPlain c = true) :
    byteLength (escapeChar c) = 1 := by
  simp only [isPlain,Bool.and_eq_true,decide_eq_true_eq,Bool.not_eq_true',beq_eq_false_iff_ne] at h
  obtain ⟨⟨⟨hlo,hhi⟩,hq⟩,hb⟩ := h
  have hne : ∀ n (hn : n < 32), c ≠ ⟨n,by omega⟩ := by
    intro n hn hc
    rw [hc] at hlo
    exact absurd hlo (by simpa using hn)
  unfold escapeChar
  rw [if_neg hq,if_neg hb,if_neg (hne 10 (by decide)),if_neg (hne 13 (by decide)),
    if_neg (hne 9 (by decide)),if_neg (hne 12 (by decide)),if_neg (hne 8 (by decide)),
    if_neg (by omega)]
  simp [Utf8.encodeChar,hhi]

lemma stringLength_plain {s : Str} (h : ∀ c ∈ s, isPlain c = true) : stringLength s = s.length := by
  induction s with
  | nil => rfl
  | cons c s ih =>
    rw [stringLength_cons,byteLength_escapeChar (h c (by simp)),
      ih fun d hd => h d (List.mem_cons_of_mem _ hd),List.length_cons]
    omega

end Json
end Python
