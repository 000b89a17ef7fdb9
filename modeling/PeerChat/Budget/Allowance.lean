import PeerChat.Python.Json

/-! The delivery allowance: unlimited, or a number of messages. -/
namespace PeerChat
open Python

inductive Budget
  | unlimited
  | count (n : ℤ)
  deriving DecidableEq

/-- `available(value)`; a missing value is read with the default 0. -/
def available : Option Budget → Bool
  | some .unlimited => true
  | some (.count n) => 0 < n
  | none => false

def spend : Budget → Budget
  | .unlimited => .unlimited
  | .count n => .count (max 0 (n-1))

/-- `parse_budget`; the text of an argument, or the number a caller passes. -/
def parseBudget : Budget → Budget
  | .unlimited => .unlimited
  | .count n => .count (max 0 (min n 50))

/-- What a store may hold as an allowance. -/
def Budget.Valid : Budget → Prop
  | .unlimited => True
  | .count n => 0 ≤ n ∧ n ≤ 50

theorem parseBudget_valid (b : Budget) : (parseBudget b).Valid := by
  cases b with
  | unlimited => trivial
  | count n =>
    simp only [parseBudget,Budget.Valid]
    omega

/-- An available finite allowance loses exactly one. -/
theorem spend_count {n : ℤ} (h : available (some (.count n)) = true) :
    spend (.count n) = .count (n-1) := by
  simp only [available,decide_eq_true_eq] at h
  simp only [spend]
  congr 1
  omega

end PeerChat
