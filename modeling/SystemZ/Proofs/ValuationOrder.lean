/-
  SystemZ.Proofs.ValuationOrder
  ─────────────────────────────
  **EQUAL VALUATIONS ARE THOSE THAT READ ALIKE, AND THE ORDER IS TOTAL.**

  Equality and order look at the alphabet and at the mask of true atoms.  What
  else a valuation assigns shows in `get?` and in whether it is complete, and
  nowhere in a truth value or a rank.  As a true atom is always an assigned
  one, and an assigned one belongs to the alphabet, the values of all atoms
  say everything that equality sees.

  Masks are compared as numbers, so the highest digit in which two of them
  differ decides.  Positions are ordered as atoms are: on one alphabet that
  digit belongs to the greatest atom on which two valuations differ.

  Main results:
    `compare_eq_eq_iff`   the order and equality fit together
    `compare_eq_lt_iff`   the greatest difference decides
    `Valuations.pairwise_rest`   an enumeration goes upwards
    `isComplete_iff`, `trueAtoms_eq_filter`, `falseAtoms_eq_filter`
    `equality_is_observational`
-/
import SystemZ.Proofs.Entries
import SystemZ.Proofs.TrueAtoms

namespace SystemZ

/-! ## §1. A total order. -/

namespace Alphabet

theorem compare_def (α β : Alphabet) :
    compare α β = compare α.atoms β.atoms := rfl

instance : Std.TransOrd Alphabet where
  eq_swap {α β} := by
    rw [compare_def, compare_def]
    exact Std.OrientedOrd.eq_swap
  isLE_trans {α β γ} := by
    rw [compare_def, compare_def, compare_def]
    exact Std.TransOrd.isLE_trans

instance : Std.LawfulEqOrd Alphabet where
  compare_self {α} := by
    rw [compare_def, Std.LawfulEqCmp.compare_eq_iff_eq]
  eq_of_compare {α β} h := by
    rw [compare_def, Std.LawfulEqCmp.compare_eq_iff_eq] at h
    cases α
    cases β
    cases h
    rfl

end Alphabet

namespace Valuation

variable {u v w : Valuation} {a b : Atom}

theorem compare_def (v w : Valuation) :
    compare v w =
      (compare v.alphabet w.alphabet).then (compare v.trueBits w.trueBits) :=
  rfl

instance : Std.TransOrd Valuation :=
  inferInstanceAs (Std.TransCmp (compareLex
    (compareOn Valuation.alphabet) (compareOn Valuation.trueBits)))

/-- The order finds no difference exactly between equal valuations. -/
theorem compare_eq_eq_iff : compare v w = .eq ↔ (v == w) = true := by
  rw [compare_def, Ordering.then_eq_eq, Std.LawfulEqCmp.compare_eq_iff_eq,
    Std.LawfulEqCmp.compare_eq_iff_eq, beq_iff, and_comm]

/-- On one alphabet the masks are compared, as numbers. -/
theorem compare_eq_lt_iff_toNat (h : v.alphabet = w.alphabet) :
    compare v w = .lt ↔ v.trueBits.toNat < w.trueBits.toNat := by
  have hself : compare v.alphabet w.alphabet = .eq :=
    Std.LawfulEqCmp.compare_eq_iff_eq.mpr h
  rw [compare_def, hself, Ordering.eq_then, ← UInt64.lt_iff_toNat_lt]
  exact compareOfLessAndEq_eq_lt

end Valuation

/-- **An enumeration goes strictly upwards.** -/
theorem Valuations.pairwise_rest (it : Valuations) :
    it.rest.Pairwise fun v w => compare v w = .lt := by
  have hmasks : (it.rest.map fun v => v.trueBits.toNat).Pairwise (· < ·) := by
    rw [masks_rest]
    exact List.pairwise_lt_range'
  rw [List.pairwise_map] at hmasks
  refine hmasks.imp_of_mem ?_
  intro v w hv hw hlt
  have hα : v.alphabet = w.alphabet :=
    (alphabet_of_mem_rest hv).trans (alphabet_of_mem_rest hw).symm
  exact (Valuation.compare_eq_lt_iff_toNat hα).mpr hlt

/-! ## §2. The greatest difference decides. -/

/-- Of two numbers the less is the one that lacks the highest digit in which
they differ. -/
theorem Mask.toNat_lt_iff {m n : Mask} :
    m.toNat < n.toNat ↔ ∃ i, m.toNat.testBit i = false ∧
      n.toNat.testBit i = true ∧
      ∀ j, i < j → m.toNat.testBit j = n.toNat.testBit j := by
  constructor
  · intro hlt
    have hne : m.toNat ^^^ n.toNat ≠ 0 := by
      rw [ne_eq, Nat.xor_eq_zero_iff]
      exact Nat.ne_of_lt hlt
    obtain ⟨i, hi, habove⟩ := Nat.exists_most_significant_bit hne
    have hsame : ∀ j, i < j → m.toNat.testBit j = n.toNat.testBit j := by
      intro j hj
      have hj := habove j hj
      rwa [Nat.testBit_xor, bne_eq_false_iff_eq] at hj
    rw [Nat.testBit_xor] at hi
    cases hm : m.toNat.testBit i with
    | false =>
        rw [hm, Bool.false_xor] at hi
        exact ⟨i, hm, hi, hsame⟩
    | true =>
        -- Then `m` would be the greater number.
        rw [hm, Bool.true_xor, Bool.not_eq_true'] at hi
        have hgt := Nat.lt_of_testBit i hi hm fun j hj => (hsame j hj).symm
        omega
  · intro h
    obtain ⟨i, hm, hn, hsame⟩ := h
    exact Nat.lt_of_testBit i hm hn hsame

namespace Valuation

variable {u v w : Valuation} {a b : Atom}

/-- **On one alphabet the greatest atom on which two valuations differ
decides**, and the one that makes it true is greater. -/
theorem compare_eq_lt_iff (hα : v.alphabet = w.alphabet) :
    compare v w = .lt ↔ ∃ a, v.value a = false ∧ w.value a = true ∧
      ∀ b, compare a b = .lt → v.value b = w.value b := by
  rw [compare_eq_lt_iff_toNat hα, Mask.toNat_lt_iff]
  constructor
  · intro h
    obtain ⟨i, hv, hw, hsame⟩ := h
    have hi : i < w.alphabet.size := by
      by_contra hge
      rw [testBit_eq_false (by omega)] at hw
      cases hw
    obtain ⟨a, ha⟩ := Alphabet.exists_index?_of_lt hi
    refine ⟨a, ?_, ?_, ?_⟩
    · rw [value_eq_testBit (hα ▸ ha), hv]
    · rw [value_eq_testBit ha, hw]
    · intro b hab
      cases hj : w.alphabet.index? b with
      | none =>
          have hout : b ∉ w.alphabet.atoms := Alphabet.index?_eq_none_iff.mp hj
          rw [value_of_not_mem hout, value_of_not_mem (hα ▸ hout)]
      | some j =>
          rw [value_eq_testBit (hα ▸ hj), value_eq_testBit hj]
          exact hsame j ((Alphabet.compare_eq_lt_iff ha hj).mp hab)
  · intro h
    obtain ⟨a, hv, hw, hsame⟩ := h
    obtain ⟨i, hi⟩ := Alphabet.exists_index?_of_mem (mem_of_value hw)
    refine ⟨i, ?_, ?_, ?_⟩
    · rw [← value_eq_testBit (hα ▸ hi), hv]
    · rw [← value_eq_testBit hi, hw]
    · intro j hij
      by_cases hj : j < w.alphabet.size
      · obtain ⟨b, hb⟩ := Alphabet.exists_index?_of_lt hj
        rw [← value_eq_testBit (hα ▸ hb), ← value_eq_testBit hb]
        exact hsame b ((Alphabet.compare_eq_lt_iff hi hb).mpr hij)
      · rw [testBit_eq_false (hα ▸ Nat.le_of_not_lt hj),
          testBit_eq_false (Nat.le_of_not_lt hj)]

/-! ## §3. Assigned atoms. -/

/-- Exactly the true atoms are assigned the value true. -/
theorem get?_eq_some_true_iff : v.get? a = some true ↔ v.value a = true :=
  ⟨value_of_get?, get?_of_value⟩

/-- An assigned atom belongs to the alphabet. -/
theorem mem_of_get? {x : Bool} (h : v.get? a = some x) :
    a ∈ v.alphabet.atoms := by
  by_contra hnot
  rw [get?, Alphabet.index?_eq_none_iff.mpr hnot] at h
  cases h

/-- Whether an atom is assigned is the digit at its position. -/
theorem isSome_get? {i : Nat} (h : v.alphabet.index? a = some i) :
    (v.get? a).isSome = v.assigned.toNat.testBit i := by
  have hi : i < 64 :=
    Nat.lt_trans (v.alphabet.index?_lt h) v.alphabet.size_lt
  rw [← Mask.has_eq_testBit _ hi, get?, h]
  cases hassigned : v.assigned.has i with
  | true => simp [hassigned]
  | false => simp [hassigned]

/-- **A valuation is complete exactly when it assigns every atom.** -/
theorem isComplete_iff :
    v.isComplete = true ↔
      ∀ a ∈ v.alphabet.atoms, (v.get? a).isSome = true := by
  rw [isComplete, beq_iff_eq, ← UInt64.toNat_inj]
  constructor
  · intro hfull a ha
    obtain ⟨i, hi⟩ := Alphabet.exists_index?_of_mem ha
    rw [isSome_get? hi, hfull, Alphabet.testBit_fullMask]
    exact decide_eq_true (v.alphabet.index?_lt hi)
  · intro hall
    apply Nat.eq_of_testBit_eq
    intro i
    rw [Alphabet.testBit_fullMask]
    by_cases hi : i < v.alphabet.size
    · obtain ⟨a, ha⟩ := Alphabet.exists_index?_of_lt hi
      rw [← isSome_get? ha, hall a (Alphabet.mem_of_index? ha),
        decide_eq_true hi]
    · rw [decide_eq_false hi,
        Alphabet.testBit_eq_false v.assigned_le (Nat.le_of_not_lt hi)]

/-! ## §4. True atoms and false ones. -/

/-- A choice of positions that follows a test of atoms lists the atoms that
pass it. -/
theorem atomsWhere_eq_filter {p : Nat → Bool} {q : Atom → Bool}
    (h : ∀ a i, v.alphabet.index? a = some i → p i = q a) :
    v.atomsWhere p = v.alphabet.atoms.toList.filter q := by
  have htest : (v.alphabet.atoms.toList.zipIdx.filter fun x => p x.2) =
      v.alphabet.atoms.toList.zipIdx.filter (q ∘ Prod.fst) := by
    apply List.filter_congr
    rintro ⟨a, i⟩ hmem
    rw [List.mk_mem_zipIdx_iff_getElem?] at hmem
    exact h a i (Alphabet.index?_eq_some_iff.mpr hmem)
  rw [atomsWhere, htest, ← List.filter_map, List.zipIdx_map_fst]

theorem trueAtoms_eq_filter :
    v.trueAtoms = v.alphabet.atoms.toList.filter v.value := by
  apply atomsWhere_eq_filter
  intro a i hi
  rw [value, hi]

theorem falseAtoms_eq_filter :
    v.falseAtoms = v.alphabet.atoms.toList.filter fun a => !v.value a := by
  apply atomsWhere_eq_filter
  intro a i hi
  rw [value, hi]

/-- **The true atoms give the valuation back.** -/
theorem exists_ofTrueAtoms_trueAtoms (v : Valuation) :
    ∃ u, ofTrueAtoms v.alphabet v.trueAtoms = .ok u ∧ (u == v) = true := by
  have hsub : ∀ a ∈ v.trueAtoms, a ∈ v.alphabet.atoms := by
    intro a ha
    exact mem_of_value (mem_trueAtoms.mp ha)
  obtain ⟨u, hu, hα, _, hvalue⟩ := exists_ofTrueAtoms_eq_ok hsub
  refine ⟨u, hu, beq_iff_value.mpr ⟨hα, ?_⟩⟩
  intro a
  rw [Bool.eq_iff_iff, hvalue a, mem_trueAtoms]

end Valuation

/-! ## §5. Equal valuations in a ranked model. -/

namespace RankedModel

variable {m : RankedModel} {v w : Valuation}

theorem isMinimal_congr (h : (v == w) = true) (φ : Formula) :
    m.isMinimal φ v = m.isMinimal φ w := by
  rw [isMinimal, isMinimal, rank?_congr h]

theorem violates_congr (h : (v == w) = true) (s : Conditional) :
    m.violates s v = m.violates s w := by
  rw [violates, violates, isMinimal_congr h, Valuation.satisfies,
    Valuation.satisfies, Valuation.value_eq_of_beq h]

end RankedModel

/-! ## §6. Equality and order, by what is read. -/

/-- **Equality of valuations is observational, and their order total.**  True
atoms are assigned, and assigned atoms belong to the alphabet and have the
value they are assigned; a valuation is complete when it assigns the whole
alphabet, which its true and its false atoms divide in order.  Valuations are
equal when they have the same alphabet and the same values, and when the order
finds no difference; the order turns round with its arguments, is transitive,
and on one alphabet goes by the greatest atom on which two valuations differ.
A valuation equals the one that is built from its true atoms.  Equal
valuations satisfy the same formulas, and no ranked model tells them apart. -/
theorem equality_is_observational (u v w : Valuation) :
    (∀ a, (v.get? a = some true ↔ v.value a = true) ∧
      ∀ x, v.get? a = some x → a ∈ v.alphabet.atoms ∧ v.value a = x) ∧
    (v.isComplete = true ↔
      ∀ a ∈ v.alphabet.atoms, (v.get? a).isSome = true) ∧
    v.trueAtoms = v.alphabet.atoms.toList.filter v.value ∧
    v.falseAtoms = v.alphabet.atoms.toList.filter (fun a => !v.value a) ∧
    ((v == w) = true ↔ compare v w = .eq) ∧
    ((v == w) = true ↔
      v.alphabet = w.alphabet ∧ ∀ a, v.value a = w.value a) ∧
    compare w v = (compare v w).swap ∧
    ((compare u v).isLE = true → (compare v w).isLE = true →
      (compare u w).isLE = true) ∧
    (v.alphabet = w.alphabet →
      (compare v w = .lt ↔ ∃ a, v.value a = false ∧ w.value a = true ∧
        ∀ b, compare a b = .lt → v.value b = w.value b)) ∧
    (∃ x, Valuation.ofTrueAtoms v.alphabet v.trueAtoms = .ok x ∧
      (x == v) = true) ∧
    ((v == w) = true →
      (∀ φ, v.satisfies φ = w.satisfies φ) ∧
      ∀ m : RankedModel, m.rank? v = m.rank? w ∧
        (∀ φ, m.isMinimal φ v = m.isMinimal φ w) ∧
        ∀ s, m.violates s v = m.violates s w) := by
  refine ⟨?_, Valuation.isComplete_iff, Valuation.trueAtoms_eq_filter,
    Valuation.falseAtoms_eq_filter, Valuation.compare_eq_eq_iff.symm,
    Valuation.beq_iff_value, Std.OrientedOrd.eq_swap, Std.TransOrd.isLE_trans,
    Valuation.compare_eq_lt_iff, v.exists_ofTrueAtoms_trueAtoms, ?_⟩
  · intro a
    refine ⟨Valuation.get?_eq_some_true_iff, ?_⟩
    intro x hx
    exact ⟨Valuation.mem_of_get? hx, Valuation.value_of_get? hx⟩
  · intro h
    constructor
    · intro φ
      rw [Valuation.satisfies, Valuation.satisfies, Valuation.value_eq_of_beq h]
    · intro m
      exact ⟨RankedModel.rank?_congr h, RankedModel.isMinimal_congr h,
        RankedModel.violates_congr h⟩

/-- Birds and penguins. -/
def penguinAlphabet : Alphabet where
  atoms := .ofList [⟨"b"⟩, ⟨"p"⟩]
  size_le := by decide

/-- A penguin of which it is left open whether it is a bird. -/
def openPenguin : Valuation := .positive penguinAlphabet 2 (by decide)

/-- A penguin that is said to be no bird. -/
def birdlessPenguin : Valuation := .complete penguinAlphabet 2 (by decide)

/-- A bird that is no penguin. -/
def plainBird : Valuation := .complete penguinAlphabet 1 (by decide)

theorem equality_of_penguins_is_observational :
    openPenguin.get? ⟨"p"⟩ = some true ∧ openPenguin.value ⟨"p"⟩ = true ∧
      (openPenguin == birdlessPenguin) = true ∧
      openPenguin.isComplete = false ∧ birdlessPenguin.isComplete = true ∧
      (∀ φ, openPenguin.satisfies φ = birdlessPenguin.satisfies φ) ∧
      (compare plainBird openPenguin).isLE = true ∧
      (compare openPenguin birdlessPenguin).isLE = true ∧
      (compare plainBird birdlessPenguin).isLE = true ∧
      ∃ a, plainBird.value a = false ∧ birdlessPenguin.value a = true := by
  have hget : openPenguin.get? ⟨"p"⟩ = some true := by decide
  have heq : (openPenguin == birdlessPenguin) = true := by decide
  have hle : (compare plainBird openPenguin).isLE = true := by decide
  have hle' : (compare openPenguin birdlessPenguin).isLE = true := by decide
  have hlt : compare plainBird birdlessPenguin = .lt := by decide
  obtain ⟨hread, _, _, _, _, _, _, _, _, _, hsame⟩ :=
    equality_is_observational openPenguin openPenguin birdlessPenguin
  obtain ⟨_, _, _, _, _, _, _, _, hgreatest, _, _⟩ :=
    equality_is_observational plainBird plainBird birdlessPenguin
  obtain ⟨_, _, _, _, _, _, _, hchain, _, _, _⟩ :=
    equality_is_observational plainBird openPenguin birdlessPenguin
  obtain ⟨a, hv, hw, _⟩ := (hgreatest rfl).mp hlt
  exact ⟨hget, ((hread ⟨"p"⟩).2 true hget).2, heq, by decide, by decide,
    (hsame heq).1, hle, hle', hchain hle hle', a, hv, hw⟩

end SystemZ
