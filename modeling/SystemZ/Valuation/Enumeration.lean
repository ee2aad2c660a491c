/-
  SystemZ.Valuation.Enumeration
  ─────────────────────────────
  **COUNTING THROUGH THE VALUATIONS OF AN ALPHABET.**

  The valuations of `n` atoms are numbered from 0 to `2 ^ n - 1`: valuation
  `k` makes true the atoms at the binary digits of `k`.  An enumeration is a
  counter, so it costs nothing until it is asked, and can be kept and resumed
  like any value.

  Main results:
    `toNat_remaining`       how many valuations are still to come
    `remaining_next?_succ`  each step leaves one fewer
    `masks_rest`            the masks of those to come count upwards
    `filter_rest`           a search cuts them at the first that passes
    `length_rest`           how many they are
-/
import SystemZ.Valuation.Basic

namespace SystemZ

/-- The valuations of an alphabet that are still to come. -/
structure Valuations where
  alphabet : Alphabet
  /-- Whether the valuations assign every atom, or the true ones alone. -/
  complete : Bool
  /-- The number of the next valuation. -/
  next : UInt64
  next_le : next ≤ alphabet.valuationCount

/-- All valuations of an alphabet, in increasing order. -/
def Alphabet.valuations (α : Alphabet) (complete : Bool) : Valuations :=
  ⟨α, complete, 0, UInt64.zero_le⟩

namespace Valuations

/-! ## §1. The step. -/

/-- The number of a valuation is a mask of the alphabet. -/
theorem le_fullMask {α : Alphabet} {m : UInt64} (h : m < α.valuationCount) :
    m ≤ α.fullMask := by
  have := UInt64.lt_iff_toNat_lt.mp h
  rw [α.toNat_valuationCount] at this
  rw [UInt64.le_iff_toNat_le, α.toNat_fullMask]
  omega

theorem toNat_succ {α : Alphabet} {m : UInt64} (h : m < α.valuationCount) :
    (m + 1).toNat = m.toNat + 1 := by
  have hlt := UInt64.lt_iff_toNat_lt.mp h
  have hpow : 2 ^ α.size < 2 ^ 64 :=
    Nat.pow_lt_pow_right (by decide) α.size_lt
  rw [α.toNat_valuationCount, Nat.one_shiftLeft] at hlt
  rw [UInt64.toNat_add, UInt64.toNat_one]
  omega

theorem succ_le {α : Alphabet} {m : UInt64} (h : m < α.valuationCount) :
    m + 1 ≤ α.valuationCount := by
  rw [UInt64.le_iff_toNat_le, toNat_succ h]
  exact UInt64.lt_iff_toNat_lt.mp h

/-- The next valuation and the enumeration behind it. -/
def next? (it : Valuations) : Option (Valuation × Valuations) :=
  if h : it.next < it.alphabet.valuationCount then
    let v :=
      if it.complete then .complete it.alphabet it.next (le_fullMask h)
      else .positive it.alphabet it.next (le_fullMask h)
    some (v, { it with next := it.next + 1, next_le := succ_le h })
  else none

/-- The number of valuations still to come. -/
def remaining (it : Valuations) : UInt64 :=
  it.alphabet.valuationCount - it.next

/-- The bounds on the number of valuations still to come; both are exact. -/
def sizeHint (it : Valuations) : UInt64 × Option UInt64 :=
  (it.remaining, some it.remaining)

theorem toNat_remaining (it : Valuations) :
    it.remaining.toNat = 1 <<< it.alphabet.size - it.next.toNat := by
  rw [remaining, UInt64.toNat_sub_of_le _ _ it.next_le,
    it.alphabet.toNat_valuationCount]

/-- **Each step leaves one valuation fewer.** -/
theorem remaining_next?_succ {it rest : Valuations} {v : Valuation}
    (h : it.next? = some (v, rest)) :
    rest.remaining.toNat + 1 = it.remaining.toNat := by
  unfold next? at h
  split at h
  case isTrue hlt =>
    cases h
    have hnext := UInt64.lt_iff_toNat_lt.mp hlt
    rw [Alphabet.toNat_valuationCount] at hnext
    rw [toNat_remaining, toNat_remaining]
    simp only [toNat_succ hlt]
    omega
  case isFalse => cases h

theorem remaining_next?_lt {it rest : Valuations} {v : Valuation}
    (h : it.next? = some (v, rest)) :
    rest.remaining.toNat < it.remaining.toNat := by
  have := remaining_next?_succ h
  omega

/-! ## §2. Running through. -/

/-- The first valuation to come that passes `p`, and the enumeration behind
it. -/
def find? (p : Valuation → Bool) (it : Valuations) :
    Option (Valuation × Valuations) :=
  match _h : it.next? with
  | none => none
  | some (v, rest) => if p v then some (v, rest) else rest.find? p
termination_by it.remaining.toNat
decreasing_by exact remaining_next?_lt _h

/-- Whether every valuation to come passes `p`. -/
def all (p : Valuation → Bool) (it : Valuations) : Bool :=
  (it.find? fun v => !p v).isNone

/-- Puts the valuations to come behind those of `seen`, which is reversed. -/
def collect (it : Valuations) (seen : List Valuation) : List Valuation :=
  match _h : it.next? with
  | none => seen.reverse
  | some (v, rest) => rest.collect (v :: seen)
termination_by it.remaining.toNat
decreasing_by exact remaining_next?_lt _h

/-- The valuations to come. -/
def rest (it : Valuations) : List Valuation := it.collect []

/-- The enumeration after `k` steps; past the end there is nothing to skip. -/
def skip (it : Valuations) : Nat → Valuations
  | 0 => it
  | k + 1 =>
      match it.next? with
      | none => it
      | some (_, behind) => behind.skip k

theorem collect_eq (it : Valuations) (seen : List Valuation) :
    it.collect seen = seen.reverse ++ it.rest := by
  induction hn : it.remaining.toNat using Nat.strongRecOn
    generalizing it seen with
  | ind n ih =>
      rw [rest, collect, collect]
      split
      · simp
      case h_2 v behind h =>
        have hlt := hn ▸ remaining_next?_lt h
        rw [ih _ hlt behind _ rfl, ih _ hlt behind _ rfl]
        simp

/-- **The valuations to come, step by step.** -/
theorem rest_eq (it : Valuations) :
    it.rest = match it.next? with
      | none => []
      | some (v, behind) => v :: behind.rest := by
  rw [rest, collect]
  split
  case h_1 h => rw [h]; rfl
  case h_2 v behind h => rw [h, collect_eq]; rfl

/-- Induction along an enumeration: what holds of its end, and of each step
if of what is behind it, holds throughout. -/
theorem step_induction {motive : Valuations → Prop}
    (done : ∀ it, it.next? = none → motive it)
    (step : ∀ it v behind, it.next? = some (v, behind) → motive behind →
      motive it) (it : Valuations) : motive it := by
  induction hn : it.remaining.toNat using Nat.strongRecOn
    generalizing it with
  | ind n ih =>
      cases h : it.next? with
      | none => exact done it h
      | some r =>
          obtain ⟨v, behind⟩ := r
          exact step it v behind h (ih _ (hn ▸ remaining_next?_lt h) behind rfl)

theorem rest_of_none {it : Valuations} (h : it.next? = none) :
    it.rest = [] := by
  rw [rest_eq, h]

theorem rest_of_some {it behind : Valuations} {v : Valuation}
    (h : it.next? = some (v, behind)) : it.rest = v :: behind.rest := by
  rw [rest_eq, h]

/-- An enumeration is at its end exactly when its counter is. -/
theorem next?_eq_none_iff {it : Valuations} :
    it.next? = none ↔ it.remaining.toNat = 0 := by
  have hle := UInt64.le_iff_toNat_le.mp it.next_le
  rw [Alphabet.toNat_valuationCount] at hle
  rw [toNat_remaining, next?]
  split
  case isTrue h =>
    have := UInt64.lt_iff_toNat_lt.mp h
    rw [Alphabet.toNat_valuationCount] at this
    simp only [reduceCtorEq, false_iff]
    omega
  case isFalse h =>
    rw [UInt64.lt_iff_toNat_lt, Alphabet.toNat_valuationCount] at h
    simp only [true_iff]
    omega

/-- The next valuation has the counter as its mask, and the counter goes up
by one. -/
theorem next?_eq_some {it behind : Valuations} {v : Valuation}
    (h : it.next? = some (v, behind)) :
    v.alphabet = it.alphabet ∧ v.trueBits = it.next ∧
      behind.alphabet = it.alphabet ∧
      behind.next.toNat = it.next.toNat + 1 := by
  unfold next? at h
  split at h
  case isTrue hlt =>
    cases h
    refine ⟨?_, ?_, rfl, toNat_succ hlt⟩ <;> split <;> rfl
  case isFalse => cases h

/-- Every valuation to come is one of the alphabet. -/
theorem alphabet_of_mem_rest {it : Valuations} {v : Valuation}
    (hv : v ∈ it.rest) : v.alphabet = it.alphabet := by
  induction it using step_induction with
  | done it h => rw [rest_of_none h] at hv; cases hv
  | step it u behind h ih =>
      rw [rest_of_some h] at hv
      obtain ⟨hu, _, hbehind, _⟩ := next?_eq_some h
      rcases List.mem_cons.mp hv with rfl | hv
      · exact hu
      · exact (ih hv).trans hbehind

/-- **The masks of the valuations to come count upwards from the counter.** -/
theorem masks_rest (it : Valuations) :
    it.rest.map (fun v => v.trueBits.toNat) =
      List.range' it.next.toNat it.remaining.toNat := by
  induction it using step_induction with
  | done it h =>
      rw [rest_of_none h, next?_eq_none_iff.mp h]
      rfl
  | step it v behind h ih =>
      obtain ⟨_, hv, _, hnext⟩ := next?_eq_some h
      rw [rest_of_some h, ← remaining_next?_succ h, List.range'_succ,
        List.map_cons, ih, hv, hnext]

theorem find?_of_none {p : Valuation → Bool} {it : Valuations}
    (h : it.next? = none) : it.find? p = none := by
  rw [find?]
  split
  · rfl
  case h_2 h' => rw [h] at h'; cases h'

theorem find?_of_some {p : Valuation → Bool} {it behind : Valuations}
    {v : Valuation} (h : it.next? = some (v, behind)) :
    it.find? p = if p v then some (v, behind) else behind.find? p := by
  rw [find?]
  split
  case h_1 h' => rw [h] at h'; cases h'
  case h_2 h' => rw [h] at h'; cases h'; rfl

/-- **A search cuts the valuations to come at the first that passes.** -/
theorem filter_rest (p : Valuation → Bool) (it : Valuations) :
    it.rest.filter p = match it.find? p with
      | none => []
      | some (v, behind) => v :: behind.rest.filter p := by
  induction it using step_induction with
  | done it h => rw [rest_of_none h, find?_of_none h]; rfl
  | step it v behind h ih =>
      rw [rest_of_some h, find?_of_some h]
      by_cases hp : p v
      · rw [if_pos hp, List.filter_cons_of_pos hp]
      · rw [if_neg hp, List.filter_cons_of_neg hp, ih]

/-- Every valuation to come passes exactly when none fails. -/
theorem all_iff {p : Valuation → Bool} {it : Valuations} :
    it.all p = true ↔ ∀ v ∈ it.rest, p v = true := by
  have h := filter_rest (fun v => !p v) it
  rw [all]
  cases hfind : it.find? fun v => !p v with
  | none =>
      rw [hfind, List.filter_eq_nil_iff] at h
      simpa using h
  | some r =>
      rw [hfind] at h
      have hmem : r.1 ∈ it.rest.filter fun v => !p v := h ▸ .head _
      obtain ⟨hrest, hfails⟩ := List.mem_filter.mp hmem
      simp only [Option.isNone_some, Bool.false_eq_true, false_iff]
      intro hall
      rw [hall r.1 hrest] at hfails
      cases hfails

/-- As many valuations are listed as are still to come. -/
theorem length_rest (it : Valuations) :
    it.rest.length = it.remaining.toNat := by
  have h := congrArg List.length (masks_rest it)
  rwa [List.length_map, List.length_range'] at h

/-- An alphabet of `n` atoms has `2 ^ n` valuations. -/
theorem length_rest_valuations (α : Alphabet) (complete : Bool) :
    (α.valuations complete).rest.length = 1 <<< α.size := by
  rw [length_rest, toNat_remaining]
  rfl

end Valuations

end SystemZ
