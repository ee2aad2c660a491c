/-
  SystemZ.Proofs.TrueAtoms
  ────────────────────────
  **A VALUATION IS KNOWN BY ITS ALPHABET AND ITS TRUE ATOMS.**

  The mask of a valuation has no digit beyond its alphabet, and each digit
  below is the value of an atom.  So two valuations of an alphabet that give
  every atom the same value have the same mask: they are equal.

  A list of atoms is read into a mask one bit at a time.  A bit that is set
  stays set, so neither order nor repetition matters, and every atom of the
  alphabet goes to a bit of its own.

  Main results:
    `beq_iff_value`              equality is same alphabet and same values
    `exists_maskOf_eq_ok`        the mask of listed atoms, digit by digit
    `exists_ofTrueAtoms_eq_ok`   the valuation that makes them true
-/
import SystemZ.Proofs.Assignments

namespace SystemZ

/-! ## §1. Atoms and positions. -/

namespace Alphabet

variable {α : Alphabet} {a b : Atom} {i j : Nat}

theorem exists_index?_of_mem (h : a ∈ α.atoms) : ∃ i, α.index? a = some i := by
  rw [← Option.ne_none_iff_exists', ne_eq, index?_eq_none_iff, not_not]
  exact h

theorem mem_of_index? (h : α.index? a = some i) : a ∈ α.atoms := by
  by_contra hnot
  rw [index?_eq_none_iff.mpr hnot] at h
  cases h

/-- Every position has an atom. -/
theorem exists_index?_of_lt (h : i < α.size) : ∃ a, α.index? a = some i :=
  ⟨_, index?_eq_some_iff.mpr (List.getElem?_eq_getElem h)⟩

/-- A position has one atom. -/
theorem eq_of_index? (ha : α.index? a = some i) (hb : α.index? b = some i) :
    a = b := by
  rw [index?_eq_some_iff] at ha hb
  exact Option.some.inj (ha.symm.trans hb)

/-- **Positions are ordered as atoms are.** -/
theorem compare_eq_lt_iff (ha : α.index? a = some i)
    (hb : α.index? b = some j) : compare a b = .lt ↔ i < j := by
  have hbefore : ∀ {c d : Atom} {k l : Nat}, α.index? c = some k →
      α.index? d = some l → k < l → compare c d = .lt := by
    intro c d k l hc hd hkl
    obtain ⟨hk, hck⟩ :=
      List.getElem?_eq_some_iff.mp (index?_eq_some_iff.mp hc)
    obtain ⟨hl, hdl⟩ :=
      List.getElem?_eq_some_iff.mp (index?_eq_some_iff.mp hd)
    have hsorted := List.pairwise_iff_getElem.mp α.atoms.sorted k l hk hl hkl
    rwa [hck, hdl] at hsorted
  constructor
  · intro hlt
    rcases Nat.lt_trichotomy i j with hij | rfl | hji
    · exact hij
    · -- The same position: the same atom.
      have hself : compare b b = .eq := Std.ReflCmp.compare_self
      rw [eq_of_index? ha hb, hself] at hlt
      cases hlt
    · have hgt := Std.OrientedCmp.gt_iff_lt.mpr (hbefore hb ha hji)
      rw [hlt] at hgt
      cases hgt
  · exact hbefore ha hb

variable {m : Mask}

/-- The full mask has the digits below the size. -/
theorem testBit_fullMask :
    α.fullMask.toNat.testBit i = decide (i < α.size) := by
  rw [α.toNat_fullMask, Nat.one_shiftLeft, Nat.testBit_two_pow_sub_one]

/-- No mask of an alphabet has a digit beyond it. -/
theorem testBit_eq_false (hm : m ≤ α.fullMask) (hi : α.size ≤ i) :
    m.toNat.testBit i = false := by
  rw [← Valuation.and_fullMask hm, UInt64.toNat_and, Nat.testBit_and,
    testBit_fullMask, decide_eq_false (Nat.not_lt.mpr hi), Bool.and_false]

end Alphabet

/-! ## §2. Values and digits. -/

namespace Valuation

variable {v w : Valuation} {a : Atom} {i : Nat}

theorem mem_of_value (h : v.value a = true) : a ∈ v.alphabet.atoms := by
  by_contra hnot
  rw [value_of_not_mem hnot] at h
  cases h

theorem testBit_eq_false (h : v.alphabet.size ≤ i) :
    v.trueBits.toNat.testBit i = false := by
  rw [← v.true_assigned, UInt64.toNat_and, Nat.testBit_and,
    Alphabet.testBit_eq_false v.assigned_le h, Bool.and_false]

/-- The true atoms are those at the digits of the mask. -/
theorem value_eq_true_iff :
    v.value a = true ↔ ∃ i, v.alphabet.index? a = some i ∧
      v.trueBits.toNat.testBit i = true := by
  constructor
  · intro h
    obtain ⟨i, hi⟩ := Alphabet.exists_index?_of_mem (mem_of_value h)
    exact ⟨i, hi, by rw [← value_eq_testBit hi, h]⟩
  · intro h
    obtain ⟨i, hi, hdigit⟩ := h
    rw [value_eq_testBit hi, hdigit]

/-- Valuations of one alphabet with the same values have the same mask. -/
theorem trueBits_eq_of_value_eq (hα : v.alphabet = w.alphabet)
    (h : ∀ a, v.value a = w.value a) : v.trueBits = w.trueBits := by
  apply UInt64.toNat.inj
  apply Nat.eq_of_testBit_eq
  intro i
  by_cases hi : i < v.alphabet.size
  · obtain ⟨a, ha⟩ := Alphabet.exists_index?_of_lt hi
    rw [← value_eq_testBit ha, ← value_eq_testBit (hα ▸ ha), h a]
  · have hi' : w.alphabet.size ≤ i := by
      rw [← hα]
      omega
    rw [testBit_eq_false (by omega), testBit_eq_false hi']

/-- **Equality is having the same alphabet and the same values.** -/
theorem beq_iff_value :
    (v == w) = true ↔
      v.alphabet = w.alphabet ∧ ∀ a, v.value a = w.value a := by
  constructor
  · intro h
    exact ⟨(beq_iff.mp h).2, congrFun (value_eq_of_beq h)⟩
  · intro h
    obtain ⟨hα, hvalue⟩ := h
    exact beq_iff.mpr ⟨trueBits_eq_of_value_eq hα hvalue, hα⟩

/-! ## §3. Listed atoms. -/

variable {α : Alphabet} {l : List Atom} {m : Mask}

/-- **Listed atoms of an alphabet have a mask**, and its digits are at their
positions. -/
theorem exists_maskOf_eq_ok (h : ∀ a ∈ l, a ∈ α.atoms) :
    ∃ m, maskOf α l = .ok m ∧
      ∀ i, m.toNat.testBit i = true ↔ ∃ a ∈ l, α.index? a = some i := by
  induction l with
  | nil => exact ⟨0, rfl, by simp⟩
  | cons a as ih =>
      obtain ⟨m, hm, hdigits⟩ := ih fun b hb => h b (List.mem_cons_of_mem _ hb)
      obtain ⟨k, hk⟩ := Alphabet.exists_index?_of_mem (h a List.mem_cons_self)
      refine ⟨Mask.bit k ||| m, by rw [maskOf, hk, hm], ?_⟩
      have hlt : k < 64 := Nat.lt_trans (α.index?_lt hk) α.size_lt
      intro i
      rw [UInt64.toNat_or, Mask.toNat_bit hlt, Nat.one_shiftLeft,
        Nat.testBit_or, Nat.testBit_two_pow, Bool.or_eq_true,
        decide_eq_true_iff, hdigits, List.exists_mem_cons_iff, hk,
        Option.some.injEq]

/-- **The valuation that makes listed atoms true** assigns all atoms, and makes
no other one true. -/
theorem exists_ofTrueAtoms_eq_ok (h : ∀ a ∈ l, a ∈ α.atoms) :
    ∃ v, ofTrueAtoms α l = .ok v ∧ v.alphabet = α ∧ v.isComplete = true ∧
      ∀ a, v.value a = true ↔ a ∈ l := by
  obtain ⟨m, hm, hdigits⟩ := exists_maskOf_eq_ok h
  refine ⟨complete α m (maskOf_le hm), ?_, rfl, beq_self_eq_true _, ?_⟩
  · unfold ofTrueAtoms
    split
    case h_1 hbad =>
      rw [hm] at hbad
      cases hbad
    case h_2 hgood =>
      rw [hm] at hgood
      cases hgood
      rfl
  intro a
  rw [value_eq_true_iff]
  constructor
  · intro htrue
    obtain ⟨i, hi, hdigit⟩ := htrue
    obtain ⟨b, hb, hbi⟩ := (hdigits i).mp hdigit
    rwa [Alphabet.eq_of_index? hi hbi]
  · intro ha
    obtain ⟨i, hi⟩ := Alphabet.exists_index?_of_mem (h a ha)
    exact ⟨i, hi, (hdigits i).mpr ⟨a, ha, hi⟩⟩

end Valuation

end SystemZ
