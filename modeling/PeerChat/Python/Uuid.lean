import PeerChat.Python.Json

/-! `uuid.UUID(value)` and its canonical text. `int(hex, 16)` is read strictly: the extra
spellings it allows (signs, underscores, other digits) are never equal to a canonical text,
and comparing with that text is all the callers do. -/
namespace Python

/-- The sixteen values of a hexadecimal digit. -/
abbrev Nibble := Fin 16

structure Uuid where
  digits : List Nibble
  length_eq : digits.length = 32
  deriving DecidableEq

namespace Uuid

def dash : CodePoint := 45

def hex (ds : List Nibble) : Str := ds.map fun d => Json.hexDigit d.val

/-- `str(u)`: groups of 8, 4, 4, 4 and 12 lower-case digits. -/
def text (u : Uuid) : Str :=
  hex (u.digits.take 8) ++ dash :: (hex ((u.digits.drop 8).take 4) ++
    dash :: (hex ((u.digits.drop 12).take 4) ++ dash :: (hex ((u.digits.drop 16).take 4) ++
      dash :: hex (u.digits.drop 20))))

def nibble (c : CodePoint) : Option Nibble :=
  (Json.hexValue c).bind fun n => if h : n < 16 then some ⟨n,h⟩ else none

/-- `uuid.UUID(value)`, none for its ValueError. -/
def parse (value : Str) : Option Uuid :=
  let hex := remove [dash] (stripChars (str "\x7b\x7d")
    (remove (str "uuid:") (remove (str "urn:") value)))
  match hex.mapM nibble with
  | some ds => if h : ds.length = 32 then some ⟨ds,h⟩ else none
  | none => none

lemma nibble_hexDigit (d : Nibble) : nibble (Json.hexDigit d.val) = some d := by
  revert d
  decide

lemma mapM_nibble_hex (ds : List Nibble) : (hex ds).mapM nibble = some ds := by
  induction ds with
  | nil => rfl
  | cons d ds ih =>
    change (Json.hexDigit d.val :: hex ds).mapM nibble = _
    simp [List.mapM_cons,nibble_hexDigit,ih]

/-- No dash, brace or letter of the prefixes is a digit. -/
lemma hex_avoids (ds : List Nibble) : ∀ c ∈ hex ds,
    c ≠ dash ∧ c ≠ ofChar 'u' ∧ c ≠ ofChar '\x7b' ∧ c ≠ ofChar '\x7d' := by
  have hall : ∀ d : Nibble, Json.hexDigit d.val ≠ dash ∧ Json.hexDigit d.val ≠ ofChar 'u' ∧
      Json.hexDigit d.val ≠ ofChar '\x7b' ∧ Json.hexDigit d.val ≠ ofChar '\x7d' := by decide
  intro c hc
  obtain ⟨d,-,rfl⟩ := List.mem_map.mp hc
  exact hall d

lemma text_avoids (u : Uuid) : ∀ c ∈ u.text,
    c ≠ ofChar 'u' ∧ c ≠ ofChar '\x7b' ∧ c ≠ ofChar '\x7d' := by
  have hd : dash ≠ ofChar 'u' ∧ dash ≠ ofChar '\x7b' ∧ dash ≠ ofChar '\x7d' := by decide
  intro c hc
  simp only [text,List.mem_append,List.mem_cons] at hc
  rcases hc with hc | rfl | hc | rfl | hc | rfl | hc | rfl | hc
  all_goals first | exact hd | exact (hex_avoids _ c hc).2

lemma filter_hex (ds : List Nibble) : (hex ds).filter (· ≠ dash) = hex ds := by
  rw [List.filter_eq_self]
  intro c hc
  simpa using (hex_avoids ds c hc).1

lemma filter_dash (s : Str) : (dash::s).filter (· ≠ dash) = s.filter (· ≠ dash) := by simp

lemma hex_append (xs ys : List Nibble) : hex (xs ++ ys) = hex xs ++ hex ys := List.map_append

/-- The canonical text parses to its own identifier. -/
theorem parse_text (u : Uuid) : parse u.text = some u := by
  have hu : ofChar 'u' ∉ u.text := fun h => (text_avoids u _ h).1 rfl
  have h1 : remove (str "urn:") u.text = u.text := remove_of_not_mem _ _ _ hu
  have h2 : remove (str "uuid:") u.text = u.text := remove_of_not_mem _ _ _ hu
  have h3 : stripChars (str "\x7b\x7d") u.text = u.text := by
    refine stripChars_of_disjoint _ _ fun c hc hm => ?_
    obtain ⟨-,hl,hr⟩ := text_avoids u c hc
    have hm' : c = ofChar '\x7b' ∨ c = ofChar '\x7d' := by
      simpa [str] using hm
    rcases hm' with h | h
    · exact hl h
    · exact hr h
  have h4 : remove [dash] u.text = hex u.digits := by
    have hs : ∀ n k, (u.digits.drop n).take k ++ u.digits.drop (n+k) = u.digits.drop n := by
      intro n k
      rw [← List.drop_drop,List.take_append_drop]
    simp only [remove_singleton,text,List.filter_append,filter_dash,filter_hex,← hex_append]
    rw [hs 16 4,hs 12 4,hs 8 4,List.take_append_drop]
  rw [parse,h1,h2,h3,h4]
  simp [mapM_nibble_hex,u.length_eq]

lemma lower_hex (ds : List Nibble) : lower (hex ds) = hex ds := by
  have hall : ∀ d : Nibble, lower [Json.hexDigit d.val] = [Json.hexDigit d.val] := by decide
  induction ds with
  | nil => rfl
  | cons d ds ih =>
    change lower ([Json.hexDigit d.val] ++ hex ds) = [Json.hexDigit d.val] ++ hex ds
    rw [lower,List.map_append]
    exact congrArg₂ (· ++ ·) (hall d) ih

theorem lower_text (u : Uuid) : lower u.text = u.text := by
  have hd : lower [dash] = [dash] := by decide
  have hc : ∀ s, lower (dash::s) = dash :: lower s := by
    intro s
    change lower [dash] ++ lower s = _
    rw [hd]
    rfl
  have ha : ∀ s t, lower (s ++ t) = lower s ++ lower t := fun s t => List.map_append
  simp only [text,ha,hc,lower_hex]

end Uuid

/-- `isinstance(value, str) and str(uuid.UUID(value)) == value.lower()`. -/
def validId (value : Str) : Bool :=
  match Uuid.parse value with
  | some u => u.text == lower value
  | none => false

theorem validId_text (u : Uuid) : validId u.text = true := by
  rw [validId,Uuid.parse_text,Uuid.lower_text]
  exact beq_self_eq_true _

/-- A valid id has only dashes and hexadecimal digits, in either case. -/
lemma not_mem_of_validId {value : Str} {c : CodePoint} (h : validId value = true)
    (hlower : lower [c] = [c]) (hdash : c ≠ Uuid.dash)
    (hdigit : ∀ d : Nibble, Json.hexDigit d.val ≠ c) : c ∉ value := by
  intro hm
  unfold validId at h
  split at h
  · rename_i u hu
    have hmem : c ∈ lower value := List.mem_map.mpr ⟨c,hm,List.singleton_inj.mp hlower⟩
    rw [← eq_of_beq h] at hmem
    have hhex : ∀ ds, c ∉ Uuid.hex ds := by
      intro ds hds
      obtain ⟨d,-,hd⟩ := List.mem_map.mp hds
      exact hdigit d hd
    simp only [Uuid.text,List.mem_append,List.mem_cons,hhex,hdash,or_self] at hmem
  · contradiction

example : validId (str "2F1E3C80-9a5b-4c1d-8e7f-0123456789ab") = true ∧
    validId (str "\x7b2f1e3c80-9a5b-4c1d-8e7f-0123456789ab\x7d") = false := by decide +kernel

end Python
