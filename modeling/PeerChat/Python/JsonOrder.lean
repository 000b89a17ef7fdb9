import Mathlib.Data.List.Chain
import Mathlib.Data.Rat.Defs
import Mathlib.Algebra.Order.Ring.Rat
import Mathlib.Data.List.Sort
import Mathlib.Order.WithBot
import PeerChat.Python.Json

/-! `==` and `<` on the values that `json.loads` returns, and `list.sort` by them. Numbers are compared by
value, whatever their type; `<` raises TypeError on values of different kinds and on dictionaries. -/
namespace Python

/-- The value of a float; none is NaN. -/
abbrev FloatValue := Option (WithBot (WithTop ℚ))

def FloatValue.ofRat (q : ℚ) : FloatValue := some ((q : WithTop ℚ) : WithBot (WithTop ℚ))

namespace Json
section
variable (F : Str → FloatValue)

/-- The value of a number; a bool is one. -/
def number : Json → Option FloatValue
  | .bool b => some (.ofRat (if b then 1 else 0))
  | .int n => some (.ofRat n)
  | .float lexeme => some (F lexeme)
  | _ => none

/-- `bool(value)`. -/
def truthy : Json → Bool
  | .null => false
  | .str s => s ≠ []
  | .arr items => !items.isEmpty
  | .obj pairs => !pairs.isEmpty
  | v => number F v ≠ some (.ofRat 0)

mutual
/-- `==` on what a container holds, where the one NaN object of the parser is itself. -/
def eq : Json → Json → Bool
  | .null, w => match w with
    | .null => true
    | _ => false
  | .str s, w => match w with
    | .str t => s == t
    | _ => false
  | .arr xs, w => match w with
    | .arr ys => eqItems xs ys
    | _ => false
  | .obj ps, w => match w with
    | .obj qs => ((ps.map Prod.fst).eraseDups.length == (qs.map Prod.fst).eraseDups.length) &&
        eqPairs ps qs
    | _ => false
  | v, w => number F v == number F w
def eqItems : List Json → List Json → Bool
  | [], ys => ys.isEmpty
  | x::xs, ys => match ys with
    | [] => false
    | y::ys => eq x y && eqItems xs ys
/-- Every pair that counts has an equal one. -/
def eqPairs : List (Str × Json) → List (Str × Json) → Bool
  | [], _ => true
  | (k,v)::ps, qs => (ps.any (·.1 = k) || match qs.reverse.lookup k with
    | some w => eq v w
    | none => false) && eqPairs ps qs
end

mutual
/-- `<`, none for its TypeError. -/
def less : Json → Json → Option Bool
  | .str s, w => match w with
    | .str t => some (s < t)
    | _ => none
  | .arr xs, w => match w with
    | .arr ys => lessItems xs ys
    | _ => none
  | v, w => do
    let a ← number F v
    let b ← number F w
    some (match a, b with
      | some a, some b => a < b
      | _, _ => false)
/-- The first items that differ decide. -/
def lessItems : List Json → List Json → Option Bool
  | [], ys => some (!ys.isEmpty)
  | x::xs, ys => match ys with
    | [] => some false
    | y::ys => if eq F x y then lessItems xs ys else less x y
end

/-- Both comparisons of two values succeed. -/
def Comparable (v w : Json) : Prop := (less F v w).isSome = true ∧ (less F w v).isSome = true

/-- Two numbers, or two strings. -/
def SameKind (v w : Json) : Prop :=
  ((number F v).isSome = true ∧ (number F w).isSome = true) ∨ ∃ s t, v = .str s ∧ w = .str t

end

variable {F : Str → FloatValue}

lemma SameKind.symm {v w : Json} (h : SameKind F v w) : SameKind F w v := by
  obtain ⟨hv,hw⟩ | ⟨s,t,hv,hw⟩ := h
  · exact Or.inl ⟨hw,hv⟩
  · exact Or.inr ⟨t,s,hw,hv⟩

lemma SameKind.trans {u v w : Json} (h : SameKind F u v) (h' : SameKind F v w) :
    SameKind F u w := by
  obtain ⟨hu,hv⟩ | ⟨s,t,hu,rfl⟩ := h
  · obtain ⟨-,hw⟩ | ⟨s,t,rfl,-⟩ := h'
    · exact Or.inl ⟨hu,hw⟩
    · cases hv
  · obtain ⟨hv,-⟩ | ⟨s',t',-,hw⟩ := h'
    · cases hv
    · exact Or.inr ⟨s,t',hu,hw⟩

end Json

/-- `list.sort` by a comparison that may raise: what the language says about it. Which comparisons are
made is left open, but neighbours in the result have been compared. -/
structure Sorter where
  sort : {α : Type} → (α → α → Option Bool) → List α → Option (List α)
  perm : ∀ {α : Type} {lt : α → α → Option Bool} {xs ys : List α}, sort lt xs = some ys → ys.Perm xs
  total : ∀ {α : Type} {lt : α → α → Option Bool} {xs : List α},
    (xs.Pairwise fun x y => (lt x y).isSome = true ∧ (lt y x).isSome = true) →
      (sort lt xs).isSome = true
  ordered : ∀ {α : Type} {lt : α → α → Option Bool} {xs ys : List α}, sort lt xs = some ys →
    ys.IsChain fun x y => lt y x = some false ∨ lt x y = some true

namespace Sorter

/-- `rows.sort(key=key, reverse=True)`, none for the TypeError of a comparison. -/
def sortDown (S : Sorter) (F : Str → FloatValue) {α : Type} (key : α → Json) (rows : List α) :
    Option (List α) :=
  (S.sort (fun a b => Json.less F (key a) (key b)) rows.reverse).map List.reverse

section
variable {S : Sorter} {F : Str → FloatValue} {α : Type} {key : α → Json} {rows sorted : List α}

end

end Sorter
end Python
