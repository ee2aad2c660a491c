/-
  SystemZ.Valuation.Lemmas
  ────────────────────────
  **READING A VALUATION THROUGH ITS ATOMS.**

  Values, assigned values and the lists of true and false atoms are four
  readings of the same two masks.  The lemmas say how they fit together.

  Main results:
    `mem_trueAtoms`, `mem_falseAtoms`  the two lists, by value
    `value_of_get?`                    an assigned value is the value
    `satisfies_congr`                  equal values satisfy equal formulas
-/
import SystemZ.Valuation.Basic

namespace SystemZ

namespace Valuation

variable {v w : Valuation} {a : Atom} {p : Nat → Bool}

theorem mem_atomsWhere :
    a ∈ v.atomsWhere p ↔ ∃ i, v.alphabet.index? a = some i ∧ p i = true := by
  simp only [atomsWhere, List.mem_map, List.mem_filter, Prod.exists,
    List.mk_mem_zipIdx_iff_getElem?, Alphabet.index?_eq_some_iff]
  constructor
  · rintro ⟨b, i, ⟨hb, hi⟩, rfl⟩
    exact ⟨i, hb, hi⟩
  · rintro ⟨i, hb, hi⟩
    exact ⟨a, i, ⟨hb, hi⟩, rfl⟩

/-- The true atoms are those with the value true. -/
theorem mem_trueAtoms : a ∈ v.trueAtoms ↔ v.value a = true := by
  rw [trueAtoms, mem_atomsWhere, value]
  cases v.alphabet.index? a <;> simp

/-- The false atoms are those of the alphabet with the value false. -/
theorem mem_falseAtoms :
    a ∈ v.falseAtoms ↔ a ∈ v.alphabet.atoms ∧ v.value a = false := by
  rw [falseAtoms, mem_atomsWhere, value]
  cases h : v.alphabet.index? a with
  | none => simp [Alphabet.index?_eq_none_iff.mp h]
  | some i =>
      have hmem : a ∈ v.alphabet.atoms := by
        by_cases hmem : a ∈ v.alphabet.atoms
        · exact hmem
        · rw [Alphabet.index?_eq_none_iff.mpr hmem] at h
          cases h
      simp [hmem]

/-- A true position is an assigned one. -/
theorem has_assigned {i : Nat} (hi : i < 64) (h : v.trueBits.has i = true) :
    v.assigned.has i = true := by
  rw [Mask.has_eq_testBit _ hi] at h ⊢
  rw [← v.true_assigned, UInt64.toNat_and, Nat.testBit_and,
    Bool.and_eq_true] at h
  exact h.2

/-- An assigned value is the value. -/
theorem value_of_get? {b : Bool} (h : v.get? a = some b) : v.value a = b := by
  unfold get? at h
  unfold value
  cases hi : v.alphabet.index? a with
  | none => rw [hi] at h; cases h
  | some i =>
      rw [hi] at h
      simp only [Option.ite_none_right_eq_some, Option.some.injEq] at h
      exact h.2

/-- A true atom is assigned. -/
theorem get?_of_value (h : v.value a = true) : v.get? a = some true := by
  unfold value at h
  unfold get?
  cases hi : v.alphabet.index? a with
  | none => rw [hi] at h; cases h
  | some i =>
      rw [hi] at h
      have hlt := v.alphabet.index?_lt hi
      have hsize := v.alphabet.size_lt
      have hassigned := has_assigned (by omega) h
      simp only at h ⊢
      rw [if_pos hassigned, h]

/-- Valuations that agree on the atoms of a formula agree on the formula. -/
theorem satisfies_congr {f : Formula}
    (h : ∀ a ∈ f.atoms, v.value a = w.value a) :
    v.satisfies f = w.satisfies f := Formula.holds_congr h

/-- Equality looks at alphabet and true atoms alone. -/
theorem beq_iff :
    (v == w) = true ↔ v.trueBits = w.trueBits ∧ v.alphabet = w.alphabet := by
  show (v.trueBits == w.trueBits && v.alphabet == w.alphabet) = true ↔ _
  rw [Bool.and_eq_true, beq_iff_eq, beq_iff_eq]

/-- Equal valuations give every atom the same value. -/
theorem value_eq_of_beq (h : (v == w) = true) : v.value = w.value := by
  obtain ⟨hbits, hα⟩ := beq_iff.mp h
  funext a
  rw [value, value, hα, hbits]

end Valuation

end SystemZ
