import PeerChat.Python.JsonLength
import PeerChat.Wire.RoundTrip

/-! Hops, ids, modes and sender names are plain: ASCII without a character that JSON escapes. -/
namespace PeerChat
open Python Wire

lemma plain_of_isHex {c : CodePoint} (h : Sha256.isHex c = true) : Json.isPlain c = true := by
  have hne : ∀ d : CodePoint, Sha256.isHex d = false → c ≠ d := by
    intro d hd he
    rw [he,hd] at h
    contradiction
  simp only [Sha256.isHex,Bool.or_eq_true,Bool.and_eq_true,decide_eq_true_eq] at h
  simp only [Json.isPlain,Bool.and_eq_true,decide_eq_true_eq,Bool.not_eq_true',beq_eq_false_iff_ne]
  exact ⟨⟨⟨by omega,by omega⟩,hne Json.quote (by decide)⟩,hne Json.backslash (by decide)⟩

lemma plain_of_inModel {c : CodePoint} (h : inModel c = true) : Json.isPlain c = true := by
  have hne : ∀ d : CodePoint, inModel d = false → c ≠ d := by
    intro d hd he
    rw [he,hd] at h
    contradiction
  have hq := hne Json.quote (by decide)
  have hb := hne Json.backslash (by decide)
  have hbounds : 32 ≤ c.val ∧ c.val < 128 := by
    simp only [inModel,Bool.or_eq_true,Bool.and_eq_true,decide_eq_true_eq,beq_iff_eq] at h
    have hval : ∀ a : Char, c = ofChar a → c.val = (ofChar a).val := fun a he => congrArg Fin.val he
    rcases h with ((((h | h) | h) | h) | h) | h
    · omega
    · omega
    · omega
    · rw [hval '_' h]
      decide
    · rw [hval '.' h]
      decide
    · rw [hval '-' h]
      decide
  simp [Json.isPlain,hbounds,hq,hb]

lemma plain_text (u : Uuid) : ∀ c ∈ u.text, Json.isPlain c = true := by
  have hhex : ∀ ds : List Nibble, ∀ c ∈ Uuid.hex ds, Json.isPlain c = true := by
    intro ds c hc
    obtain ⟨d,-,rfl⟩ := List.mem_map.mp hc
    exact plain_of_isHex (Sha256.isHex_hexDigit d.isLt)
  have hdash : Json.isPlain Uuid.dash = true := by decide
  intro c hc
  simp only [Uuid.text,List.mem_append,List.mem_cons] at hc
  rcases hc with h | rfl | h | rfl | h | rfl | h | rfl | h
  all_goals first | exact hdash | exact hhex _ c h

lemma length_text (u : Uuid) : u.text.length = 36 := by
  simp [Uuid.text,Uuid.hex,u.length_eq]

lemma plain_mode (mode : Mode) : ∀ c ∈ mode.text, Json.isPlain c = true := by
  cases mode
  · exact all_str "bypass" (by decide +kernel)
  · exact all_str "prompting" (by decide +kernel)

/-! Plain texts have a UTF-8 form. -/

lemma scalar_of_plain {s : Str} (h : ∀ c ∈ s, Json.isPlain c = true) : Scalar s := by
  intro c hc
  have := h c hc
  simp only [Json.isPlain,Bool.and_eq_true,decide_eq_true_eq] at this
  exact Json.isSurrogate_of_lt (by omega)

lemma scalar_text (u : Uuid) : Scalar u.text := scalar_of_plain (plain_text u)

@[simp] lemma scalar_modeText (mode : Mode) : Scalar mode.text := scalar_of_plain (plain_mode mode)

lemma scalar_of_isHop {hops : List Str} (h : ∀ x ∈ hops, isHop x = true) : ∀ x ∈ hops, Scalar x :=
  fun x hx => scalar_of_plain fun c hc => plain_of_isHex (isHop_isHex (h x hx) c hc)

/-- Lower-casing leaves a surrogate as it is. -/
lemma scalar_of_lower {s : Str} (h : Scalar (lower s)) : Scalar s := by
  intro c hc
  by_contra hsur
  rw [Bool.not_eq_false] at hsur
  have hupper : ¬ (65 ≤ c.val ∧ c.val ≤ 90) := by
    simp only [isSurrogate,Bool.and_eq_true,decide_eq_true_eq] at hsur
    omega
  have hmem : c ∈ lower s := List.mem_map.mpr ⟨c,hc,by rw [dif_neg hupper]⟩
  rw [h c hmem] at hsur
  contradiction

lemma scalar_of_validId {mid : Str} (h : validId mid = true) : Scalar mid := by
  unfold validId at h
  split at h
  · rename_i u hu
    refine scalar_of_lower ?_
    rw [← eq_of_beq h]
    exact scalar_text u
  · contradiction

end PeerChat
