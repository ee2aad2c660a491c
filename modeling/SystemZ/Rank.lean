/-
  SystemZ.Rank
  ────────────
  **RANKS: HOW EXCEPTIONAL A CONDITIONAL OR A VALUATION IS.**

  A rank is a natural number, 0 for the most normal, or infinite, above them
  all, for what is never normal.
-/
import SystemZ.Order

namespace SystemZ

/-- A rank. -/
inductive Rank where
  | finite (n : Nat)
  | infinite
  deriving DecidableEq, Inhabited

namespace Rank

/-- Whether the rank is finite. -/
def isFinite : Rank → Bool
  | finite _ => true
  | infinite => false

/-- The number of a finite rank. -/
def finite? : Rank → Option Nat
  | finite n => some n
  | infinite => none

/-- The printed form: the decimal number, or `∞`. -/
def text : Rank → String
  | finite n => toString n
  | infinite => "∞"

/-- Finite ranks by number, then the infinite one. -/
def cmp : Rank → Rank → Ordering
  | finite m, finite n => compare m n
  | finite _, infinite => .lt
  | infinite, finite _ => .gt
  | infinite, infinite => .eq

instance : Ord Rank := ⟨cmp⟩

instance : LT Rank := ltOfOrd

instance : LE Rank := leOfOrd

@[simp] theorem finite_lt_finite {m n : Nat} :
    finite m < finite n ↔ m < n := Nat.compare_eq_lt

@[simp] theorem finite_lt_infinite (n : Nat) : finite n < infinite := rfl

@[simp] theorem not_infinite_lt (r : Rank) : ¬ infinite < r := by
  cases r <;> exact fun h => nomatch (h : _ = Ordering.lt)

@[simp] theorem finite_le_finite {m n : Nat} :
    finite m ≤ finite n ↔ m ≤ n := Nat.isLE_compare

@[simp] theorem le_infinite (r : Rank) : r ≤ infinite := by
  cases r <;> rfl

@[simp] theorem infinite_le_iff {r : Rank} :
    infinite ≤ r ↔ r = infinite := by
  cases r with
  | finite n =>
      constructor
      · exact fun h => nomatch (h : Ordering.isLE .gt = true)
      · exact fun h => nomatch h
  | infinite => exact ⟨fun _ => rfl, fun _ => rfl⟩

end Rank

end SystemZ
