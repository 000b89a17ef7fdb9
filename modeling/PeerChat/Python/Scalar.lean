import PeerChat.Python.JsonRoundTrip

/-! Texts of Unicode scalar values: those that have a UTF-8 form. `dumps` writes such a text
exactly if the texts in the value are such, since a surrogate is not escaped. -/
namespace Python

def Scalar (s : Str) : Prop := ∀ c ∈ s, isSurrogate c = false

instance (s : Str) : Decidable (Scalar s) :=
  decidable_of_iff (s.all (!isSurrogate ·) = true) (by simp [Scalar])

@[simp] lemma scalar_nil : Scalar [] := by simp [Scalar]

@[simp] lemma scalar_cons (c : CodePoint) (s : Str) :
    Scalar (c::s) ↔ isSurrogate c = false ∧ Scalar s := by simp [Scalar]

@[simp] lemma scalar_append (s t : Str) : Scalar (s ++ t) ↔ Scalar s ∧ Scalar t := by
  simp only [Scalar,List.mem_append]
  constructor
  · exact fun h => ⟨fun c hc => h c (Or.inl hc),fun c hc => h c (Or.inr hc)⟩
  · exact fun h c hc => hc.elim (h.1 c) (h.2 c)

/-- A literal has no surrogate: a character of the host language is a scalar value. -/
@[simp] lemma scalar_str (s : String) : Scalar (str s) := by
  intro c hc
  obtain ⟨a,-,rfl⟩ := List.mem_map.mp hc
  have ha := a.valid
  change (decide (0xD800 ≤ a.val.toNat) && decide (a.val.toNat ≤ 0xDFFF)) = false
  simp only [Bool.and_eq_false_iff,decide_eq_false_iff_not]
  rcases ha with h | h
  · left
    exact not_le.mpr h
  · right
    have := h.1
    change 0xDFFF < a.val.toNat at this
    omega

lemma scalar_of_subset {s t : Str} (h : s ⊆ t) (ht : Scalar t) : Scalar s := fun c hc => ht c (h hc)

/-- A text has a UTF-8 form exactly if it has no surrogate. -/
theorem encode_isSome_iff (s : Str) : (Utf8.encode s).isSome ↔ Scalar s := by
  unfold Utf8.encode
  by_cases h : s.any isSurrogate = true
  · rw [if_pos h]
    refine iff_of_false (by simp) fun hs => ?_
    obtain ⟨c,hc,hsur⟩ := List.any_eq_true.mp h
    rw [hs c hc] at hsur
    contradiction
  · rw [if_neg h]
    refine iff_of_true rfl fun c hc => ?_
    by_contra hsur
    exact h (List.any_eq_true.mpr ⟨c,hc,by simpa using hsur⟩)

lemma scalar_intercalate {sep : Str} (hsep : Scalar sep) (parts : List Str) :
    Scalar (sep.intercalate parts) ↔ ∀ p ∈ parts, Scalar p := by
  induction parts with
  | nil => simp
  | cons p parts ih =>
    cases parts with
    | nil => simp
    | cons q parts =>
      rw [List.intercalate_cons_cons,scalar_append,scalar_append,ih]
      simp [hsep]

namespace Json

lemma isSurrogate_of_lt {c : CodePoint} (h : c.val < 0xD800) : isSurrogate c = false := by
  simp only [isSurrogate,Bool.and_eq_false_iff,decide_eq_false_iff_not]
  omega

lemma isSurrogate_hexDigit (n : ℕ) : isSurrogate (hexDigit n) = false := by
  refine isSurrogate_of_lt ?_
  unfold hexDigit
  split_ifs with h
  · change 48+n < 0xD800
    omega
  · change 87+n%16 < 0xD800
    omega

lemma scalar_escapeChar (c : CodePoint) : Scalar (escapeChar c) ↔ isSurrogate c = false := by
  by_cases h : c.val < 128
  · refine iff_of_true ?_ (isSurrogate_of_lt (by omega))
    have hb : isSurrogate backslash = false := by decide
    have hd := isSurrogate_hexDigit
    have hc : isSurrogate c = false := isSurrogate_of_lt (by omega)
    unfold escapeChar
    split_ifs <;> simp only [scalar_cons,scalar_nil,hb,hd,hc,and_true,true_and] <;> decide
  · have hne : ∀ n (hn : n < 128), c ≠ ⟨n,by omega⟩ := by
      intro n hn hcn
      rw [hcn] at h
      exact h hn
    unfold escapeChar
    rw [if_neg (hne 34 (by decide)),if_neg (hne 92 (by decide)),if_neg (hne 10 (by decide)),
      if_neg (hne 13 (by decide)),if_neg (hne 9 (by decide)),if_neg (hne 12 (by decide)),
      if_neg (hne 8 (by decide)),if_neg (by omega)]
    simp

@[simp] lemma scalar_dumpsStr (s : Str) : Scalar (dumpsStr s) ↔ Scalar s := by
  have hq : isSurrogate quote = false := by decide
  have hflat : Scalar (s.flatMap escapeChar) ↔ Scalar s := by
    induction s with
    | nil => simp
    | cons c s ih => rw [List.flatMap_cons,scalar_append,scalar_escapeChar,scalar_cons,ih]
  simp [dumpsStr,hq,hflat]

lemma scalar_dumpsNat (n : ℕ) : Scalar (dumpsNat n) := by
  obtain ⟨ds,hd,-,hall,-,-⟩ := digitsFrom_eq (n+1) n [] (by omega)
  rw [dumpsNat,hd,List.append_nil]
  intro c hc
  have := hall c hc
  simp only [isDigit,Bool.and_eq_true,decide_eq_true_eq] at this
  exact isSurrogate_of_lt (by omega)

@[simp] lemma scalar_dumpsInt (n : ℤ) : Scalar (dumpsInt n) := by
  have hm : isSurrogate (chr 45) = false := by decide
  cases n with
  | ofNat n => exact scalar_dumpsNat n
  | negSucc n => simp [dumpsInt,hm,scalar_dumpsNat]

lemma scalar_dumpsPairs (ps : List (Str × Json)) :
    Scalar (dumpsPairs ps) ↔ ∀ p ∈ ps, Scalar p.1 ∧ Scalar (dumps p.2) := by
  have h : ∀ n ∈ [125,44,32,58], ∀ hn, isSurrogate ⟨n,hn⟩ = false := by decide
  induction ps with
  | nil => simp [dumpsPairs,h]
  | cons p ps ih => simp [dumpsPairs,h,ih,and_assoc]

/-- An object is written without a surrogate exactly if its keys and values are. -/
lemma scalar_dumps_obj (ps : List (Str × Json)) :
    Scalar (dumps (.obj ps)) ↔ ∀ p ∈ ps, Scalar p.1 ∧ Scalar (dumps p.2) := by
  have h : ∀ n ∈ [123,125,58,32], ∀ hn, isSurrogate ⟨n,hn⟩ = false := by decide
  cases ps with
  | nil => simp [dumps,h]
  | cons p ps => simp [dumps,h,scalar_dumpsPairs,and_assoc]

lemma scalar_dumpsItems (xs : List Json) : Scalar (dumpsItems xs) ↔ ∀ x ∈ xs, Scalar (dumps x) := by
  have h : ∀ n ∈ [93,44,32], ∀ hn, isSurrogate ⟨n,hn⟩ = false := by decide
  induction xs with
  | nil => simp [dumpsItems,h]
  | cons x xs ih => simp [dumpsItems,h,ih]

lemma scalar_dumps_arr (xs : List Json) : Scalar (dumps (.arr xs)) ↔ ∀ x ∈ xs, Scalar (dumps x) := by
  have h : isSurrogate (chr 91) = false := by decide
  cases xs with
  | nil => simp [dumps]
  | cons x xs => simp [dumps,h,scalar_dumpsItems]

@[simp] lemma dumps_str (s : Str) : dumps (.str s) = dumpsStr s := by rw [dumps]

@[simp] lemma dumps_int (n : ℤ) : dumps (.int n) = dumpsInt n := by rw [dumps]

end Json
end Python
