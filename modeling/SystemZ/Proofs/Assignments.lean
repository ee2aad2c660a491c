/-
  SystemZ.Proofs.Assignments
  ──────────────────────────
  **THE VALUATIONS OF AN ALPHABET STAND FOR ALL ASSIGNMENTS.**

  An assignment gives a truth value to every atom there is.  An enumeration
  meets, for each assignment, a valuation that agrees with it on the whole
  alphabet; so a search over an alphabet that covers some formulas answers a
  question about all assignments.

  Main results:
    `exists_mem_rest_of_assignment`  every assignment is met
    `exists_satisfiesAll_iff`        a search decides joint satisfiability
    `exists_satisfiable_eq_ok`       so does the inferred alphabet, if it fits
-/
import Mathlib.Data.Nat.Bitwise
import SystemZ.Consequence
import SystemZ.Proofs.FiniteSets
import SystemZ.Valuation.Lemmas

namespace SystemZ

/-! ## §1. Valuations by number. -/

namespace Valuation

variable {v : Valuation} {a : Atom}

theorem value_of_not_mem (h : a ∉ v.alphabet.atoms) : v.value a = false := by
  rw [value, Alphabet.index?_eq_none_iff.mpr h]

/-- The value of an atom is the binary digit at its position. -/
theorem value_eq_testBit {i : Nat} (h : v.alphabet.index? a = some i) :
    v.value a = v.trueBits.toNat.testBit i := by
  have hi : i < v.alphabet.size := v.alphabet.index?_lt h
  have hsize : v.alphabet.size < 64 := v.alphabet.size_lt
  rw [value, h]
  exact Mask.has_eq_testBit _ (by omega)

theorem toNat_trueBits_lt (v : Valuation) :
    v.trueBits.toNat < 2 ^ v.alphabet.size := by
  have hand : v.trueBits.toNat ≤ v.assigned.toNat := by
    rw [← v.true_assigned, UInt64.toNat_and]
    exact Nat.and_le_right
  have hassigned := UInt64.le_iff_toNat_le.mp v.assigned_le
  have hpos : 0 < 2 ^ v.alphabet.size := Nat.two_pow_pos _
  rw [v.alphabet.toNat_fullMask] at hassigned
  omega

end Valuation

namespace Valuations

/-- Valuation number `k` stands at place `k`. -/
theorem getElem?_rest_valuations {α : Alphabet} (complete : Bool) {k : Nat}
    (h : k < 2 ^ α.size) :
    ∃ v, (α.valuations complete).rest[k]? = some v ∧ v.trueBits.toNat = k := by
  -- The masks of the enumeration are the numbers below `2 ^ α.size` in order.
  have hlen := length_rest_valuations α complete
  have hk : k < (α.valuations complete).rest.length := by omega
  have hmask := congrArg (·[k]?) (masks_rest (α.valuations complete))
  rw [toNat_remaining, Nat.one_shiftLeft] at hmask
  simp only [List.getElem?_map, List.getElem?_eq_getElem hk,
    Option.map_some] at hmask
  rw [List.getElem?_range' (by exact h)] at hmask
  refine ⟨_, List.getElem?_eq_getElem hk, ?_⟩
  simpa [Alphabet.valuations] using hmask

/-- **Every assignment is met**: some valuation of the enumeration agrees with
it on the alphabet. -/
theorem exists_mem_rest_of_assignment (α : Alphabet) (complete : Bool)
    (value : Atom → Bool) :
    ∃ v ∈ (α.valuations complete).rest, ∀ a ∈ α.atoms, v.value a = value a := by
  -- The number whose digits are the values of the atoms in order.
  let digits : Fin α.size → Bool := fun i => value (α.atoms.toList.get i)
  obtain ⟨v, hget, hbits⟩ :=
    getElem?_rest_valuations complete (Nat.ofBits_lt_two_pow digits)
  have hmem : v ∈ (α.valuations complete).rest := List.mem_of_getElem? hget
  refine ⟨v, hmem, ?_⟩
  intro a ha
  have hα : v.alphabet = α := alphabet_of_mem_rest hmem
  cases hi : α.index? a with
  | none => exact absurd ha (Alphabet.index?_eq_none_iff.mp hi)
  | some i =>
      have hlt : i < α.size := α.index?_lt hi
      have hat : α.atoms.toList.get ⟨i, hlt⟩ = a := by
        have hget := Alphabet.index?_eq_some_iff.mp hi
        rwa [List.getElem?_eq_getElem hlt, Option.some.injEq] at hget
      rw [Valuation.value_eq_testBit (hα ▸ hi), hbits,
        Nat.testBit_ofBits_lt digits i hlt]
      show value (α.atoms.toList.get ⟨i, hlt⟩) = value a
      rw [hat]

/-- Every valuation of an alphabet equals the listed one of its number. -/
theorem exists_getElem?_rest_beq {α : Alphabet} (complete : Bool)
    {v : Valuation} (h : v.alphabet = α) :
    ∃ w, (α.valuations complete).rest[v.trueBits.toNat]? = some w ∧
      (w == v) = true := by
  obtain ⟨w, hw, hbits⟩ :=
    getElem?_rest_valuations complete (h ▸ v.toNat_trueBits_lt)
  have hα : w.alphabet = α := alphabet_of_mem_rest (List.mem_of_getElem? hw)
  exact ⟨w, hw, Valuation.beq_iff.mpr
    ⟨UInt64.toNat.inj hbits, hα.trans h.symm⟩⟩

/-- Every valuation of an alphabet reads like a listed one. -/
theorem exists_mem_rest_of_alphabet {α : Alphabet} (complete : Bool)
    {v : Valuation} (h : v.alphabet = α) :
    ∃ w ∈ (α.valuations complete).rest, w.value = v.value := by
  obtain ⟨w, hw, hbeq⟩ := exists_getElem?_rest_beq complete h
  exact ⟨w, List.mem_of_getElem? hw, Valuation.value_eq_of_beq hbeq⟩

end Valuations

/-! ## §2. Searches over a covering alphabet. -/

theorem Valuation.satisfiesAll_iff {v : Valuation} {fs : List Formula} :
    v.satisfiesAll fs = true ↔ ∀ f ∈ fs, f.holds v.value = true :=
  List.all_eq_true

/-- **A search over a covering alphabet decides joint satisfiability.** -/
theorem exists_satisfiesAll_iff {α : Alphabet} {complete : Bool}
    {fs : List Formula} (hα : ∀ f ∈ fs, ∀ a ∈ f.atoms, a ∈ α.atoms) :
    (∃ v ∈ (α.valuations complete).rest, v.satisfiesAll fs = true) ↔
      ∃ value : Atom → Bool, ∀ f ∈ fs, f.holds value = true := by
  constructor
  · intro h
    obtain ⟨v, _, hv⟩ := h
    exact ⟨v.value, Valuation.satisfiesAll_iff.mp hv⟩
  · intro h
    obtain ⟨value, hvalue⟩ := h
    obtain ⟨v, hv, hagree⟩ :=
      Valuations.exists_mem_rest_of_assignment α complete value
    refine ⟨v, hv, Valuation.satisfiesAll_iff.mpr ?_⟩
    intro f hf
    rw [Formula.holds_congr fun a ha => hagree a (hα f hf a ha)]
    exact hvalue f hf

/-- There is a next model exactly when some valuation to come is one. -/
theorem Models.isSome_next?_iff {m : Models} :
    m.next?.isSome = true ↔
      ∃ v ∈ m.candidates.rest, v.satisfiesAll m.formulas = true := by
  -- The first model, if any, heads the list of all models to come.
  have hlist := m.toList_eq
  cases hnext : m.next? with
  | none =>
      rw [hnext, Models.toList, List.filter_eq_nil_iff] at hlist
      simpa using hlist
  | some r =>
      rw [hnext] at hlist
      have hmem : r.1 ∈ m.toList := hlist ▸ List.mem_cons_self
      obtain ⟨hrest, hall⟩ := List.mem_filter.mp hmem
      simp only [Option.isSome_some, true_iff]
      exact ⟨r.1, hrest, hall⟩

/-! ## §3. The inferred alphabet. -/

/-- The atoms that occur in some formulas. -/
def occurringAtoms (fs : List Formula) : SortedSet Atom :=
  .ofList (fs.flatMap fun f => f.atoms.toList)

theorem mem_occurringAtoms {fs : List Formula} {a : Atom} :
    a ∈ occurringAtoms fs ↔ ∃ f ∈ fs, a ∈ f.atoms := by
  simp [occurringAtoms]

theorem Alphabet.ofFormulas_eq (fs : List Formula) :
    Alphabet.ofFormulas fs = Alphabet.ofSet (occurringAtoms fs) := rfl

theorem size_occurringAtoms_le {fs : List Formula} {s : SortedSet Atom}
    (h : ∀ f ∈ fs, ∀ a ∈ f.atoms, a ∈ s) :
    (occurringAtoms fs).size ≤ s.size := by
  apply SortedSet.size_le_of_subset
  intro a ha
  obtain ⟨f, hf, haf⟩ := mem_occurringAtoms.mp ha
  exact h f hf a haf

/-- Atoms that belong to one alphabet fit an alphabet. -/
theorem Alphabet.size_le_of_subset {α : Alphabet} {s : SortedSet Atom}
    (h : ∀ a ∈ s, a ∈ α.atoms) : s.size ≤ maxAlphabetSize :=
  Nat.le_trans (SortedSet.size_le_of_subset h) α.size_le

/-- **Satisfiability over the inferred alphabet** is satisfiability by an
assignment, and it is decided whenever the atoms fit an alphabet. -/
theorem exists_satisfiable_eq_ok {fs : List Formula}
    (h : (occurringAtoms fs).size ≤ maxAlphabetSize) :
    ∃ b, satisfiable fs none = .ok b ∧
      (b = true ↔ ∃ value : Atom → Bool, ∀ f ∈ fs, f.holds value = true) := by
  let α : Alphabet := ⟨occurringAtoms fs, h⟩
  have hmodels : models fs none = .ok ⟨fs, α.valuations false⟩ := by
    rw [models, Alphabet.orOfFormulas, Alphabet.ofFormulas_eq,
      Alphabet.ofSet, dif_pos h]
  refine ⟨_, by rw [satisfiable, hmodels], ?_⟩
  rw [Models.isSome_next?_iff]
  apply exists_satisfiesAll_iff
  intro f hf a ha
  exact mem_occurringAtoms.mpr ⟨f, hf, ha⟩

end SystemZ
