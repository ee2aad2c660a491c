/-
  SystemZ.Proofs.Ranks
  ────────────────────
  **RANKS IN LINEAR ORDER.**

  Ranks are the natural numbers and one greatest rank, linearly ordered by the
  comparison that sorts them.  One level up, every finite rank grows by one and
  infinity stays.  A rank is known by its finite bounds: a finite one is the
  least of them, and the infinite one has none.

  Main results:
    `lt_succ_iff`, `succ_le_succ_iff`   ranks, one level up
    `isLeast_bounds_iff`                a finite rank by its bounds
    `le_of_forall_le_finite`            comparison by finite bounds
    `forall_not_le_finite_iff`          the infinite one by their absence
    `isGLB_of_finite_le_iff`            lower bounds of a set, by finite ones
-/
import Mathlib.Order.Bounds.Defs
import Mathlib.Order.Defs.LinearOrder
import Mathlib.Order.Iterate
import SystemZ.Rank

namespace SystemZ

namespace Rank

/-! ## §1. The order. -/

/-- Below a finite rank there are only finite ones. -/
theorem le_finite_iff {r : Rank} {n : Nat} :
    r ≤ finite n ↔ ∃ m, r = finite m ∧ m ≤ n := by
  cases r with
  | finite m => simp
  | infinite => simp

theorem lt_finite_iff {r : Rank} {n : Nat} :
    r < finite n ↔ ∃ m, r = finite m ∧ m < n := by
  cases r with
  | finite m => simp
  | infinite => simp

theorem compare_eq (r s : Rank) :
    compare r s = compareOfLessAndEq r s := by
  unfold compareOfLessAndEq
  cases r with
  | infinite => cases s <;> simp [compare, cmp]
  | finite m =>
      cases s with
      | infinite => simp [compare, cmp]
      | finite n => simp [compare, cmp, compareOfLessAndEq]

instance : LinearOrder Rank where
  le_refl r := by cases r <;> simp
  le_trans r s t hrs hst := by
    cases t with
    | infinite => exact le_infinite r
    | finite k =>
        obtain ⟨j, rfl, hjk⟩ := le_finite_iff.mp hst
        obtain ⟨i, rfl, hij⟩ := le_finite_iff.mp hrs
        exact finite_le_finite.mpr (Nat.le_trans hij hjk)
  le_antisymm r s hrs hsr := by
    cases s with
    | infinite => exact infinite_le_iff.mp hsr
    | finite j =>
        obtain ⟨i, rfl, hij⟩ := le_finite_iff.mp hrs
        rw [Nat.le_antisymm hij (finite_le_finite.mp hsr)]
  le_total r s := by
    cases r with
    | infinite => exact .inr (le_infinite s)
    | finite i =>
        cases s with
        | infinite => exact .inl (le_infinite _)
        | finite j => simpa using Nat.le_total i j
  lt_iff_le_not_ge r s := by
    cases r with
    | infinite => simp
    | finite i =>
        cases s with
        | infinite => simp
        | finite j => simpa using Nat.le_of_lt
  toDecidableLE := inferInstance
  toDecidableEq := inferInstance
  toDecidableLT := inferInstance
  compare_eq_compareOfLessAndEq := compare_eq

@[simp] theorem not_lt_zero (r : Rank) : ¬ r < finite 0 := by
  cases r <;> simp

/-! ## §2. One level up. -/

/-- The rank one level up; infinity stays. -/
def succ : Rank → Rank
  | finite n => finite (n + 1)
  | infinite => infinite

variable {r s : Rank} {i n : Nat}

@[simp] theorem not_succ_le_zero (r : Rank) : ¬ r.succ ≤ finite 0 := by
  cases r <;> simp [succ]

/-- One level up from a rank is the next one, where there is a next one. -/
theorem succ_le_finite_iff : r.succ ≤ finite n ↔ r < finite n := by
  cases r with
  | finite m =>
      rw [succ, finite_le_finite, finite_lt_finite]
      exact Nat.succ_le_iff
  | infinite => simp [succ]

@[simp] theorem succ_le_succ_iff : r.succ ≤ finite (i + 1) ↔ r ≤ finite i := by
  cases r <;> simp [succ]

theorem le_of_succ_le_succ (h : r.succ ≤ s.succ) : r ≤ s := by
  cases s with
  | finite n => exact succ_le_succ_iff.mp h
  | infinite => exact le_infinite _

@[simp] theorem succ_eq_infinite_iff : r.succ = infinite ↔ r = infinite := by
  cases r <;> simp [succ]

@[simp] theorem succ_eq_finite_succ_iff :
    r.succ = finite (i + 1) ↔ r = finite i := by
  cases r <;> simp [succ]

@[simp] theorem lt_succ_iff : r < finite (i + 1) ↔ r ≤ finite i := by
  cases r with
  | finite n =>
      rw [finite_lt_finite, finite_le_finite]
      omega
  | infinite => simp

@[simp] theorem succ_lt_succ_iff : r.succ < finite (i + 1) ↔ r < finite i := by
  cases i with
  | zero => simp
  | succ i => simp

@[simp] theorem zero_lt_succ (r : Rank) : finite 0 < r.succ :=
  not_le.mp (not_succ_le_zero r)

@[simp] theorem finite_succ_lt_succ_iff :
    finite (i + 1) < r.succ ↔ finite i < r := by
  rw [← not_le, succ_le_succ_iff, not_le]

theorem iterate_succ_infinite (k : Nat) : succ^[k] infinite = infinite :=
  Function.iterate_fixed rfl k

theorem iterate_succ_zero (k : Nat) : succ^[k] (finite 0) = finite k := by
  induction k with
  | zero => rfl
  | succ k ih => rw [Function.iterate_succ_apply', ih, succ]

/-! ## §3. Finite bounds. -/

/-- A rank is finite exactly when its finite bounds have a least one. -/
theorem isLeast_bounds_iff : IsLeast {i | r ≤ finite i} n ↔ r = finite n := by
  constructor
  · intro h
    obtain ⟨hle, hleast⟩ := h
    obtain ⟨m, rfl, hmn⟩ := le_finite_iff.mp hle
    have hnm : n ≤ m := hleast (finite_le_finite.mpr (Nat.le_refl m))
    rw [Nat.le_antisymm hmn hnm]
  · intro h
    subst h
    constructor
    · exact finite_le_finite.mpr (Nat.le_refl n)
    · intro i hi
      exact finite_le_finite.mp hi

theorem forall_not_le_finite_iff : (∀ i, ¬ r ≤ finite i) ↔ r = infinite := by
  constructor
  · intro h
    cases r with
    | finite n => exact absurd (le_refl _) (h n)
    | infinite => rfl
  · intro h i hi
    subst h
    cases infinite_le_iff.mp hi

/-- What is below every finite bound of a rank is below the rank. -/
theorem le_of_forall_le_finite (h : ∀ i, s ≤ finite i → r ≤ finite i) :
    r ≤ s := by
  cases s with
  | finite n => exact h n (le_refl _)
  | infinite => exact le_infinite r

/-! ## §4. The least of a set of ranks. -/

/-- Above a finite rank there are those from the next one on. -/
theorem finite_succ_le_iff : finite (n + 1) ≤ r ↔ finite n < r := by
  rw [← not_lt, lt_succ_iff, not_le]

/-- A rank is known by its finite lower bounds. -/
theorem le_of_forall_finite_le (h : ∀ i, finite i ≤ r → finite i ≤ s) :
    r ≤ s := by
  cases r with
  | finite n => exact h n (le_refl _)
  | infinite =>
      -- A finite `s` would be above its own successor.
      cases s with
      | finite n =>
          have hnext : finite (n + 1) ≤ finite n := h (n + 1) (le_infinite _)
          exact absurd (finite_succ_le_iff.mp hnext) (lt_irrefl _)
      | infinite => exact le_refl _

variable {S : Set Rank}

/-- What has the same finite lower bounds as a set is its greatest lower
bound. -/
theorem isGLB_of_finite_le_iff
    (h : ∀ i, finite i ≤ r ↔ ∀ q ∈ S, finite i ≤ q) : IsGLB S r := by
  constructor
  · intro q hq
    exact le_of_forall_finite_le fun i hi => (h i).mp hi q hq
  · intro s hs
    apply le_of_forall_finite_le
    intro i hi
    exact (h i).mpr fun q hq => le_trans hi (hs hq)

/-- **The greatest lower bound of some ranks is the least of them.** -/
theorem isLeast_of_isGLB (h : IsGLB S r) (hne : S.Nonempty) :
    IsLeast S r := by
  refine ⟨?_, h.1⟩
  by_contra hnot
  -- Not in the set, it is below the whole set, and so is the next rank.
  have hstrict : ∀ q ∈ S, r < q := fun q hq =>
    lt_of_le_of_ne (h.1 hq) fun heq => hnot (heq ▸ hq)
  cases r with
  | finite n =>
      have hnext : finite (n + 1) ≤ finite n :=
        h.2 fun q hq => finite_succ_le_iff.mpr (hstrict q hq)
      exact lt_irrefl _ (finite_succ_le_iff.mp hnext)
  | infinite =>
      obtain ⟨q, hq⟩ := hne
      exact not_infinite_lt q (hstrict q hq)

/-- The greatest lower bound of no rank is infinite. -/
theorem eq_infinite_of_isGLB_empty (h : IsGLB ∅ r) : r = infinite :=
  infinite_le_iff.mp (h.2 fun _ hq => hq.elim)

end Rank

end SystemZ
