import PeerChat.Python.Text
import Mathlib.Data.List.Infix

/-! The envelope around a message body: its writer, the two regular expressions that take it
apart again, and the search for a nested marker. Each expression is matched directly: its
repeated classes exclude the character that follows them, so the longest run at each
repetition loses no match. -/
namespace PeerChat.Wire
open Python

def TAG : Str := str "cross-session-message"

/-- A pattern letter against a character under `re.IGNORECASE`, with the four non-ASCII
characters whose case folds into ASCII. -/
def sameLetter (p c : CodePoint) : Bool :=
  p == c || (97 ≤ p.val && p.val ≤ 122 && c.val+32 == p.val) ||
  (p == ofChar 'i' && (c.val == 0x130 || c.val == 0x131)) ||
  (p == ofChar 's' && c.val == 0x17F) || (p == ofChar 'k' && c.val == 0x212A)

/-- The rest after a literal, case ignored. -/
def matchLiteral : Str → Str → Option Str
  | [], s => some s
  | p::ps, c::s => if sameLetter p c then matchLiteral ps s else none
  | _::_, [] => none

def isSlash (c : CodePoint) : Bool := c == ofChar '/' || c == ofChar '\\'

/-- `\b` after a word character. -/
def atBoundary (U : Interp) : Str → Bool
  | [] => true
  | c::_ => !U.isWord c

/-- `<\s*[/\\]*\s*cross-session-message\b` at the start of a text. -/
def markerAt (U : Interp) : Str → Bool
  | [] => false
  | c::s =>
    c == ofChar '<' &&
      match matchLiteral TAG (((s.dropWhile isSpace).dropWhile isSlash).dropWhile isSpace) with
      | some rest => atBoundary U rest
      | none => false

/-- `nested_marker(body)`. -/
def nestedMarker (U : Interp) (body : Str) : Bool := body.tails.any (markerAt U)

/-! The opening tag. -/

def openTag : Str := str "<cross-session-message "
def closeTag : Str := str "\n</cross-session-message>"

/-- `key="value"`. -/
def attrText (kv : Str × Str) : Str := kv.1 ++ str "=\"" ++ kv.2 ++ str "\""

def attributes (pairs : List (Str × Str)) : Str := join (ofChar ' ') (pairs.map attrText)

def envelope (attrs body : Str) : Str :=
  openTag ++ attrs ++ str ">\n" ++ body ++ closeTag

/-- `[^<>\n]` -/
def inTag (c : CodePoint) : Bool := !(c == ofChar '<' || c == ofChar '>' || c == ofChar '\n')

/-- `[^"<>\n]` -/
def inValue (c : CodePoint) : Bool := inTag c && !(c == ofChar '"')

/-- `[a-z-]` -/
def inKey (c : CodePoint) : Bool := (97 ≤ c.val && c.val ≤ 122) || c == ofChar '-'

/-- The text after a fixed beginning. -/
def after (p s : Str) : Option Str := if p.isPrefixOf s then some (s.drop p.length) else none

/-- The text before a fixed end. -/
def before (p s : Str) : Option Str :=
  if p.isSuffixOf s then some (s.take (s.length-p.length)) else none

/-- `re.fullmatch(r'<cross-session-message ([^<>\n]+)>\n([\s\S]*)\n</cross-session-message>', content)`:
the two groups. -/
def matchEnvelope (content : Str) : Option (Str × Str) := do
  let s ← after openTag content
  let attrs := s.takeWhile inTag
  let s ← after (str ">\n") (s.dropWhile inTag)
  let body ← before closeTag s
  if attrs = [] then none else some (attrs,body)

/-- `([a-z-]+)="([^"<>\n]*)"` at the start of a text, with the rest. -/
def matchPair (s : Str) : Option ((Str × Str) × Str) := do
  let key := s.takeWhile inKey
  let s ← after (str "=\"") (s.dropWhile inKey)
  let value := s.takeWhile inValue
  let s ← after (str "\"") (s.dropWhile inValue)
  if key = [] then none else some ((key,value),s)

/-- `re.findall`: at each position a match is taken, or the character is skipped. The number
bounds the positions still to be looked at. -/
def findPairs : ℕ → Str → List (Str × Str)
  | _, [] => []
  | 0, _::_ => []
  | k+1, c::s =>
    match matchPair (c::s) with
    | some (kv,rest) => kv :: findPairs k rest
    | none => findPairs k s

/-- The attribute list, if scanning and re-joining gives the same text and no key repeats. -/
def readAttributes (attrs : Str) : Option (List (Str × Str)) :=
  let pairs := findPairs attrs.length attrs
  if attributes pairs = attrs ∧ (pairs.map Prod.fst).Nodup then some pairs else none

/-! What was written is read back. -/

lemma after_append (p s : Str) : after p (p ++ s) = some s := by
  simp [after]

lemma before_append (p s : Str) : before p (s ++ p) = some s := by
  simp [before]

lemma takeWhile_stop {p : CodePoint → Bool} {xs : Str} {c : CodePoint} (s : Str)
    (hxs : ∀ x ∈ xs, p x = true) (hc : p c = false) :
    (xs ++ c::s).takeWhile p = xs ∧ (xs ++ c::s).dropWhile p = c::s := by
  constructor
  · rw [List.takeWhile_append_of_pos hxs]
    simp [hc]
  · rw [List.dropWhile_append_of_pos hxs]
    simp [hc]

theorem matchEnvelope_envelope {attrs : Str} (body : Str) (hne : attrs ≠ [])
    (h : ∀ c ∈ attrs, inTag c = true) : matchEnvelope (envelope attrs body) = some (attrs,body) := by
  have he : envelope attrs body =
      openTag ++ (attrs ++ ofChar '>' :: ofChar '\n' :: (body ++ closeTag)) := by
    simp [envelope,str]
  have hstop := takeWhile_stop (c := ofChar '>') (ofChar '\n' :: (body ++ closeTag)) h (by decide)
  have ha := after_append (str ">\n") (body ++ closeTag)
  have hs : str ">\n" ++ (body ++ closeTag) = ofChar '>' :: ofChar '\n' :: (body ++ closeTag) := rfl
  rw [hs] at ha
  rw [he]
  simp only [matchEnvelope,after_append,Option.bind_eq_bind,Option.bind_some,hstop.1,hstop.2,ha,
    before_append,if_neg hne]

theorem matchPair_attrText {key value : Str} (rest : Str) (hne : key ≠ [])
    (hk : ∀ c ∈ key, inKey c = true) (hv : ∀ c ∈ value, inValue c = true) :
    matchPair (attrText (key,value) ++ rest) = some ((key,value),rest) := by
  have he : attrText (key,value) ++ rest =
      key ++ ofChar '=' :: ofChar '"' :: (value ++ ofChar '"' :: rest) := by
    simp [attrText,str]
  have hstop := takeWhile_stop (c := ofChar '=') (ofChar '"' :: (value ++ ofChar '"' :: rest)) hk
    (by decide)
  have hstop' := takeWhile_stop (c := ofChar '"') rest hv (by decide)
  have h1 : after (str "=\"") (ofChar '=' :: ofChar '"' :: (value ++ ofChar '"' :: rest)) =
      some (value ++ ofChar '"' :: rest) := after_append (str "=\"") _
  have h2 : after (str "\"") (ofChar '"' :: rest) = some rest := after_append (str "\"") _
  rw [he]
  simp only [matchPair,hstop.1,hstop.2,h1,h2,hstop'.1,hstop'.2,Option.bind_eq_bind,
    Option.bind_some,if_neg hne]

/-- A pair that the scanner reads back as written. -/
def WellFormed (kv : Str × Str) : Prop :=
  kv.1 ≠ [] ∧ (∀ c ∈ kv.1, inKey c = true) ∧ ∀ c ∈ kv.2, inValue c = true

lemma attrText_ne_nil (kv : Str × Str) : attrText kv ≠ [] := by simp [attrText,str]

lemma attributes_cons (kv : Str × Str) (pairs : List (Str × Str)) :
    attributes (kv::pairs) = attrText kv ++
      (if pairs = [] then [] else ofChar ' ' :: attributes pairs) := by
  cases pairs with
  | nil => simp [attributes,join,List.intercalate]
  | cons p ps => simp [attributes,join,List.intercalate]

lemma findPairs_attributes (pairs : List (Str × Str)) (h : ∀ kv ∈ pairs, WellFormed kv) (k : ℕ)
    (hk : (attributes pairs).length ≤ k) : findPairs k (attributes pairs) = pairs := by
  induction pairs generalizing k with
  | nil =>
    have hn : attributes [] = [] := rfl
    rw [hn]
    cases k <;> rfl
  | cons kv pairs ih =>
    obtain ⟨hne,hkey,hval⟩ := h kv (by simp)
    have hpos : 0 < (attrText kv).length := List.length_pos_iff.mpr (attrText_ne_nil kv)
    have hm := matchPair_attrText (if pairs = [] then [] else ofChar ' ' :: attributes pairs)
      hne hkey hval
    rw [attributes_cons,List.length_append] at hk
    rw [attributes_cons]
    obtain ⟨k,rfl⟩ : ∃ j, k = j+1 := ⟨k-1,by omega⟩
    cases hs : attrText kv ++ (if pairs = [] then [] else ofChar ' ' :: attributes pairs) with
    | nil => simp [attrText_ne_nil] at hs
    | cons c s =>
      rw [hs] at hm
      simp only [findPairs,hm]
      congr 1
      split_ifs with hp
      · subst hp
        cases k <;> rfl
      · rw [if_neg hp,List.length_cons] at hk
        -- the space between two pairs starts no key, so the scanner skips it
        have hspace : matchPair (ofChar ' ' :: attributes pairs) = none := by
          have h1 : inKey (ofChar ' ') = false := by decide
          have h2 : ∀ s, after (str "=\"") (ofChar ' ' :: s) = none := by
            intro s
            have : (ofChar '=' == ofChar ' ') = false := by decide
            simp [after,str,List.isPrefixOf,this]
          simp [matchPair,List.dropWhile,h1,h2]
        obtain ⟨k,rfl⟩ : ∃ j, k = j+1 := ⟨k-1,by omega⟩
        simp only [findPairs,hspace]
        exact ih (fun p hp => h p (by simp [hp])) k (by omega)

theorem readAttributes_attributes {pairs : List (Str × Str)} (h : ∀ kv ∈ pairs, WellFormed kv)
    (hd : (pairs.map Prod.fst).Nodup) : readAttributes (attributes pairs) = some pairs := by
  have hf := findPairs_attributes pairs h _ le_rfl
  simp [readAttributes,hf,hd]

/-! A marker found in a text without its trailing white space is there with it too. -/

lemma dropWhile_append_of_ne_nil {p : CodePoint → Bool} {xs : Str} (ys : Str)
    (h : xs.dropWhile p ≠ []) : (xs ++ ys).dropWhile p = xs.dropWhile p ++ ys := by
  rw [List.dropWhile_append]
  simp [h]

lemma matchLiteral_append {ps s rest : Str} (spaces : Str) (h : matchLiteral ps s = some rest) :
    matchLiteral ps (s ++ spaces) = some (rest ++ spaces) := by
  induction ps generalizing s with
  | nil =>
    cases h
    rfl
  | cons p ps ih =>
    cases s with
    | nil => simp [matchLiteral] at h
    | cons c s =>
      simp only [matchLiteral] at h
      split_ifs at h with hc
      simp only [List.cons_append,matchLiteral,if_pos hc]
      exact ih h

lemma markerAt_append (U : Interp) {s : Str} {spaces : Str}
    (hsp : ∀ c ∈ spaces, isSpace c = true) (h : markerAt U s = true) :
    markerAt U (s ++ spaces) = true := by
  cases s with
  | nil => simp [markerAt] at h
  | cons c s =>
    simp only [markerAt,Bool.and_eq_true] at h
    obtain ⟨hc,h⟩ := h
    cases hm : matchLiteral TAG (((s.dropWhile isSpace).dropWhile isSlash).dropWhile isSpace) with
    | none => simp [hm] at h
    | some rest =>
      rw [hm] at h
      have h3 : ((s.dropWhile isSpace).dropWhile isSlash).dropWhile isSpace ≠ [] := by
        intro hn
        rw [hn] at hm
        cases hm
      have h2 : (s.dropWhile isSpace).dropWhile isSlash ≠ [] := by
        intro hn
        exact h3 (by rw [hn]; rfl)
      have h1 : s.dropWhile isSpace ≠ [] := by
        intro hn
        exact h2 (by rw [hn]; rfl)
      have hb : atBoundary U (rest ++ spaces) = true := by
        cases rest with
        | cons d rest => exact h
        | nil =>
          cases spaces with
          | nil => rfl
          | cons d ds => simp [atBoundary,U.space_not_word d (hsp d (by simp))]
      simp only [List.cons_append,markerAt,hc,Bool.true_and,dropWhile_append_of_ne_nil _ h1,
        dropWhile_append_of_ne_nil _ h2,dropWhile_append_of_ne_nil _ h3,
        matchLiteral_append spaces hm]
      exact hb

theorem nestedMarker_rstrip (U : Interp) {body : Str} (h : nestedMarker U body = false) :
    nestedMarker U (rstrip body) = false := by
  obtain ⟨spaces,hs,hsp⟩ := rstrip_append_spaces body
  by_contra hn
  rw [Bool.not_eq_false,nestedMarker,List.any_eq_true] at hn
  obtain ⟨t,ht,hm⟩ := hn
  rw [List.mem_tails] at ht
  have hmem : t ++ spaces ∈ body.tails := by
    rw [List.mem_tails]
    obtain ⟨u,hu⟩ := ht
    exact ⟨u,by rw [← List.append_assoc,hu,← hs]⟩
  have htrue : nestedMarker U body = true :=
    List.any_eq_true.mpr ⟨_,hmem,markerAt_append U hsp hm⟩
  rw [h] at htrue
  contradiction

end PeerChat.Wire
