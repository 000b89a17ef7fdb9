import Mathlib.Algebra.GroupWithZero.Nat
import PeerChat.Python.Json

/-! What an interpreter reads with `json.loads`: values that are not nested too deep, and integers
that are not too long. -/
namespace Python
namespace Json

mutual
/-- How deep arrays and objects are nested. A pair that a later one replaces counts too. -/
def depth : Json → ℕ
  | .arr items => depthItems items + 1
  | .obj pairs => depthPairs pairs + 1
  | _ => 0
def depthItems : List Json → ℕ
  | [] => 0
  | x::xs => max (depth x) (depthItems xs)
def depthPairs : List (Str × Json) → ℕ
  | [] => 0
  | (_,v)::ps => max (depth v) (depthPairs ps)
end

mutual
/-- No integer has more than `k` digits. -/
def withinDigits (k : ℕ) : Json → Bool
  | .int n => n.natAbs < 10^k
  | .arr items => withinDigitsItems k items
  | .obj pairs => withinDigitsPairs k pairs
  | _ => true
def withinDigitsItems (k : ℕ) : List Json → Bool
  | [] => true
  | x::xs => withinDigits k x && withinDigitsItems k xs
def withinDigitsPairs (k : ℕ) : List (Str × Json) → Bool
  | [] => true
  | (_,v)::ps => withinDigits k v && withinDigitsPairs k ps
end

lemma depthItems_le_iff {n : ℕ} (xs : List Json) : depthItems xs ≤ n ↔ ∀ x ∈ xs, x.depth ≤ n := by
  induction xs with
  | nil => simp [depthItems]
  | cons x xs ih => simp [depthItems,ih]

lemma withinDigitsItems_iff {k : ℕ} (xs : List Json) :
    withinDigitsItems k xs = true ↔ ∀ x ∈ xs, x.withinDigits k = true := by
  induction xs with
  | nil => simp [withinDigitsItems]
  | cons x xs ih => simp [withinDigitsItems,ih]

/-- A number below `10^k` is written with at most `k` digits. -/
lemma length_dumpsNat_le {n k : ℕ} (h : n < 10^(k+1)) : (dumpsNat n).length ≤ k+1 := by
  have hfrom : ∀ (j n k : ℕ) (acc : Str), n < 10^(k+1) →
      (digitsFrom j n acc).length ≤ acc.length+(k+1) := by
    intro j
    induction j with
    | zero =>
      intro n k acc _
      simp [digitsFrom]
    | succ j ih =>
      intro n k acc hn
      simp only [digitsFrom]
      split_ifs with hten
      · simp
      · cases k with
        | zero => omega
        | succ k =>
          have hdiv : n/10 < 10^(k+1) := by
            rw [Nat.div_lt_iff_lt_mul (by decide)]
            calc n < 10^(k+1+1) := hn
              _ = 10^(k+1)*10 := Nat.pow_succ ..
          have := ih (n/10) k (hexDigit (n%10)::acc) hdiv
          rw [List.length_cons] at this
          omega
  simpa [dumpsNat] using hfrom (n+1) n k [] h

end Json

namespace Interp
variable (U : Interp)

/-- The values that `json.loads` can build. -/
def reads (v : Json) : Bool := v.depth ≤ U.maxDepth && v.withinDigits U.maxDigits

/-- `json.loads(raw)`, none for its ValueError, UnicodeDecodeError or RecursionError. -/
def loads (raw : Bytes) : Option Json := (Json.loads raw).filter U.reads

variable {U}

lemma loads_eq_some_iff {raw : Bytes} {v : Json} :
    U.loads raw = some v ↔ Json.loads raw = some v ∧ U.reads v = true :=
  Option.filter_eq_some_iff

lemma loads_eq {raw : Bytes} {v : Json} (h : Json.loads raw = some v) (hreads : U.reads v = true) :
    U.loads raw = some v := loads_eq_some_iff.mpr ⟨h,hreads⟩

/-- An integer of few digits is read by every interpreter. -/
lemma lt_maxDigits {n : ℕ} (h : n < 10^8) : n < 10^U.maxDigits :=
  h.trans_le (Nat.pow_le_pow_right (by decide) (le_trans (by decide) U.enough_digits))

end Interp
end Python
