import Mathlib.Data.List.DropRight
import Mathlib.Order.Fin.Basic

/-! Python text. A `str` is a sequence of code points, lone surrogates included, so it is a
list of numbers below 0x110000 and not a Lean `String`. The string methods follow the
documented behaviour of the language; nothing here knows the program that uses them. -/
namespace Python

/-- One position of a `str`. -/
abbrev CodePoint := Fin 0x110000

abbrev Str := List CodePoint

abbrev Bytes := List UInt8

def ofChar (c : Char) : CodePoint :=
  ⟨c.val.toNat, by rcases c.valid with h | h <;> omega⟩

/-- The literal `s` as a `str`. -/
def str (s : String) : Str := s.toList.map ofChar

/-- A literal is this list of characters to the kernel, which need not encode and decode it. -/
lemma str_ofList (l : List Char) : str (String.ofList l) = l.map ofChar := by simp [str]

def isSurrogate (c : CodePoint) : Bool := 0xD800 ≤ c.val && c.val ≤ 0xDFFF

/-- A text that counts as true, if there is one. -/
def truthy (s : Option Str) : Bool := s.getD [] ≠ []

/-- `str.isspace` of one character, which is also what `\s` matches. -/
def isSpace (c : CodePoint) : Bool :=
  (9 ≤ c.val && c.val ≤ 13) || (28 ≤ c.val && c.val ≤ 32) || c.val == 0x85 || c.val == 0xA0 ||
  c.val == 0x1680 || (0x2000 ≤ c.val && c.val ≤ 0x200A) || c.val == 0x2028 || c.val == 0x2029 ||
  c.val == 0x202F || c.val == 0x205F || c.val == 0x3000

def lstrip (s : Str) : Str := s.dropWhile isSpace
def rstrip (s : Str) : Str := s.rdropWhile isSpace
def strip (s : Str) : Str := rstrip (lstrip s)

def startswith (s p : Str) : Bool := p.isPrefixOf s

/-- `sep.join(parts)` for a one-character separator. -/
def join (sep : CodePoint) (parts : List Str) : Str := [sep].intercalate parts

/-- `s.split(sep)` for a one-character separator. -/
def split (sep : CodePoint) (s : Str) : List Str := s.splitOn sep

theorem split_join (sep : CodePoint) (parts : List Str) (hne : parts ≠ [])
    (hsep : ∀ p ∈ parts, sep ∉ p) : split sep (join sep parts) = parts :=
  List.splitOn_intercalate sep hsep hne

/-- `str.lower` on the characters whose lower case can be an ASCII letter; the verdict of a
comparison with an ASCII text of letters other than i and k needs no other. -/
def lower (s : Str) : Str :=
  s.map fun c => if h : 65 ≤ c.val ∧ c.val ≤ 90 then ⟨c.val+32, by omega⟩ else c

/-- `s.replace(pat, "")`; the number is what is left to skip of the occurrence just found. -/
def removeFrom (pat : Str) : ℕ → Str → Str
  | _, [] => []
  | k+1, _::s => removeFrom pat k s
  | 0, c::s =>
    if pat.isPrefixOf (c::s) then removeFrom pat (pat.length-1) s else c :: removeFrom pat 0 s

def remove (pat s : Str) : Str := removeFrom pat 0 s

theorem remove_of_not_mem (p : CodePoint) (pat s : Str) (h : p ∉ s) :
    remove (p::pat) s = s := by
  induction s with
  | nil => rfl
  | cons c s ih =>
    obtain ⟨hc,hs⟩ := not_or.mp (fun hm => h (List.mem_cons.mpr hm))
    have hp : (p::pat).isPrefixOf (c::s) = false := by simp [List.isPrefixOf,hc]
    change (if (p::pat).isPrefixOf (c::s) then _ else c :: removeFrom (p::pat) 0 s) = c::s
    rw [hp]
    exact congrArg (c :: ·) (ih hs)

theorem remove_singleton (p : CodePoint) (s : Str) : remove [p] s = s.filter (· ≠ p) := by
  induction s with
  | nil => rfl
  | cons c s ih =>
    by_cases hc : p = c
    · subst c
      simpa [remove,removeFrom,List.isPrefixOf] using ih
    · have hcp : c ≠ p := fun h => hc h.symm
      simpa [remove,removeFrom,List.isPrefixOf,hc,hcp] using ih

/-- `s.strip(chars)`. -/
def stripChars (chars s : Str) : Str :=
  (s.dropWhile (chars.contains ·)).rdropWhile (chars.contains ·)

theorem stripChars_of_disjoint (chars s : Str) (h : ∀ c ∈ s, c ∉ chars) :
    stripChars chars s = s := by
  have hd : s.dropWhile (chars.contains ·) = s := by
    cases s with
    | nil => rfl
    | cons c s => simp [List.dropWhile, h c (by simp)]
  rw [stripChars,hd,List.rdropWhile_eq_self_iff]
  intro hl
  simpa using h _ (List.getLast_mem hl)

/-- What differs from one interpreter to the next: the alphanumeric characters of its Unicode
database, none of which is white space; and what it reads of a JSON text, so many nested values and
so many digits of an integer. -/
structure Interp where
  isAlnum : CodePoint → Bool
  space_not_alnum : ∀ c, isSpace c = true → isAlnum c = false
  /-- Values nested deeper raise RecursionError. -/
  maxDepth : ℕ
  /-- `sys.get_int_max_str_digits()`. A longer integer raises ValueError. -/
  maxDigits : ℕ
  enough_depth : 8 ≤ maxDepth
  /-- `sys.int_info.str_digits_check_threshold` -/
  enough_digits : 640 ≤ maxDigits

/-- An interpreter that knows ASCII alone, with the default limits. -/
def Interp.ascii : Interp where
  isAlnum c := (48 ≤ c.val && c.val ≤ 57) || (65 ≤ c.val && c.val ≤ 90) ||
    (97 ≤ c.val && c.val ≤ 122)
  maxDepth := 990
  maxDigits := 4300
  enough_depth := by decide
  enough_digits := by decide
  space_not_alnum c h := by
    simp only [isSpace,Bool.or_eq_true,Bool.and_eq_true,decide_eq_true_eq,beq_iff_eq] at h
    simp only [Bool.or_eq_false_iff,Bool.and_eq_false_iff,decide_eq_false_iff_not]
    omega

/-- `\w`. -/
def Interp.isWord (U : Interp) (c : CodePoint) : Bool := U.isAlnum c || c == ofChar '_'

lemma Interp.space_not_word (U : Interp) (c : CodePoint) (h : isSpace c = true) :
    U.isWord c = false := by
  have hu : c ≠ ofChar '_' := by
    rintro rfl
    revert h
    decide
  simp [isWord,U.space_not_alnum c h,hu]

/-! Stripping. -/

theorem rstrip_isPrefix (s : Str) : rstrip s <+: s := List.rdropWhile_prefix _ _

theorem rstrip_append_spaces (s : Str) :
    ∃ spaces, s = rstrip s ++ spaces ∧ ∀ c ∈ spaces, isSpace c = true := by
  refine ⟨s.rtakeWhile isSpace, (List.rdropWhile_append_rtakeWhile ..).symm, ?_⟩
  intro c hc
  exact List.mem_rtakeWhile_imp hc

/-- A text is blank exactly when it has only white space. -/
theorem strip_eq_nil_iff (s : Str) : strip s = [] ↔ ∀ c ∈ s, isSpace c = true := by
  simp only [strip,rstrip,lstrip,List.rdropWhile_eq_nil_iff]
  constructor
  · intro h c hc
    have hs := List.takeWhile_append_dropWhile (p := isSpace) (l := s)
    rw [← hs] at hc
    rcases List.mem_append.mp hc with ht | hd
    · exact List.mem_takeWhile_imp ht
    · exact h c hd
  · intro h c hc
    exact h c ((List.dropWhile_suffix _).subset hc)

theorem strip_rstrip_eq_nil_iff (s : Str) : strip (rstrip s) = [] ↔ strip s = [] := by
  obtain ⟨spaces,hs,hsp⟩ := rstrip_append_spaces s
  rw [strip_eq_nil_iff,strip_eq_nil_iff]
  constructor
  · intro h c hc
    rw [hs] at hc
    rcases List.mem_append.mp hc with ht | ht
    · exact h c ht
    · exact hsp c ht
  · exact fun h c hc => h c ((rstrip_isPrefix s).subset hc)

end Python
