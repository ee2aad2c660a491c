/-
  SystemZ.Mask
  ────────────
  **SETS OF POSITIONS AS 64-BIT WORDS.**

  A mask is a word whose bit `i` says whether position `i` is in the set.
  Every operation is described by what it does to the number `toNat` or to
  its binary digits; no shift or subtraction below position 64 wraps.

  Main results:
    `toNat_bit`, `toNat_below`  the words of one position, of the first `n`
    `has_eq_testBit`            membership is a binary digit
-/

namespace SystemZ

/-- A set of positions below 64. -/
abbrev Mask := UInt64

namespace Mask

/-- The set of position `i` alone. -/
def bit (i : Nat) : Mask := 1 <<< i.toUInt64

/-- The set of the positions below `n`. -/
def below (n : Nat) : Mask := bit n - 1

/-- Whether position `i` is in the set. -/
def has (m : Mask) (i : Nat) : Bool := m &&& bit i != 0

theorem toNat_bit {i : Nat} (h : i < 64) : (bit i).toNat = 1 <<< i := by
  have hi : i.toUInt64.toNat = i := by
    simp only [Nat.toUInt64, UInt64.toNat_ofNat']
    omega
  have hpow : 1 <<< i < 2 ^ 64 := by
    rw [Nat.one_shiftLeft]
    exact Nat.pow_lt_pow_right (by decide) h
  rw [bit, UInt64.toNat_shiftLeft, hi, Nat.mod_eq_of_lt h, UInt64.toNat_one,
    Nat.mod_eq_of_lt hpow]

theorem toNat_below {n : Nat} (h : n < 64) :
    (below n).toNat = 1 <<< n - 1 := by
  have hone : (1 : UInt64) ≤ bit n := by
    rw [UInt64.le_iff_toNat_le, toNat_bit h, UInt64.toNat_one,
      Nat.one_shiftLeft]
    exact Nat.one_le_two_pow
  rw [below, UInt64.toNat_sub_of_le _ _ hone, toNat_bit h, UInt64.toNat_one]

/-- **Membership of a position is a binary digit of the word.** -/
theorem has_eq_testBit (m : Mask) {i : Nat} (h : i < 64) :
    m.has i = m.toNat.testBit i := by
  have hdigit (j : Nat) : (m &&& bit i).toNat.testBit j =
      (m.toNat.testBit j && decide (i = j)) := by
    rw [UInt64.toNat_and, toNat_bit h, Nat.one_shiftLeft, Nat.testBit_and,
      Nat.testBit_two_pow]
  cases hbit : m.toNat.testBit i with
  | false =>
      have hzero : m &&& bit i = 0 := UInt64.toNat.inj <|
        Nat.eq_of_testBit_eq fun j => by
          rw [hdigit j, UInt64.toNat_zero, Nat.zero_testBit]
          by_cases hij : i = j
          · rw [← hij, hbit, Bool.false_and]
          · rw [decide_eq_false hij, Bool.and_false]
      simp [has, hzero]
  | true =>
      have hne : m &&& bit i ≠ 0 := fun hzero => by
        have := hdigit i
        rw [hzero, hbit] at this
        simp at this
      simp [has, hne]

end Mask

end SystemZ
