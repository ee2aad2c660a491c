/-
  SystemZ.Proofs.Entries
  ──────────────────────
  **THE ENTRIES OF A RANKED MODEL ARE WHAT IT LOOKS UP.**

  A ranked model keeps the rank of a valuation at its number.  Walking through
  the entries goes by position and looking up goes by mask; position and mask
  are the same number, so the two meet the same pairs.  What a walk finds out,
  such as whether a valuation is minimal for a formula, is then a statement on
  the ranks of all valuations of the alphabet, listed or not.

  Main results:
    `RankedModel.mem_entries`     the entries, by look-up
    `RankedModel.isMinimal_iff`   minimality, by the ranks at a formula
-/
import Mathlib.Data.List.Forall2
import SystemZ.Proofs.Assignments
import SystemZ.Proofs.Ranks
import SystemZ.RankedModel

namespace SystemZ

/-- A listed valuation stands at the number that its mask is. -/
theorem Valuations.toNat_trueBits_of_getElem? {α : Alphabet} {complete : Bool}
    {k : Nat} {v : Valuation}
    (h : (α.valuations complete).rest[k]? = some v) :
    v.trueBits.toNat = k := by
  have hk : k < (α.valuations complete).rest.length :=
    (List.getElem?_eq_some_iff.mp h).1
  rw [length_rest_valuations, Nat.one_shiftLeft] at hk
  obtain ⟨w, hw, hbits⟩ := getElem?_rest_valuations complete hk
  rw [h, Option.some.injEq] at hw
  rw [hw, hbits]

/-- Two enumerations of an alphabet list equal valuations, whether or not they
assign the false atoms too. -/
theorem Valuations.forall₂_beq_rest (α : Alphabet) (b c : Bool) :
    List.Forall₂ (fun v w => (v == w) = true)
      (α.valuations b).rest (α.valuations c).rest := by
  rw [List.forall₂_iff_get]
  constructor
  · rw [length_rest_valuations, length_rest_valuations]
  intro k hk hk'
  have hbits := toNat_trueBits_of_getElem? (List.getElem?_eq_getElem hk)
  have hbits' := toNat_trueBits_of_getElem? (List.getElem?_eq_getElem hk')
  have hα := alphabet_of_mem_rest (List.getElem_mem hk)
  have hα' := alphabet_of_mem_rest (List.getElem_mem hk')
  exact Valuation.beq_iff.mpr
    ⟨UInt64.toNat.inj (hbits.trans hbits'.symm), hα.trans hα'.symm⟩

namespace RankedModel

variable {m : RankedModel} {u v : Valuation} {r : Rank} {φ : Formula}

/-- Equal valuations have the same rank. -/
theorem rank?_congr (h : (u == v) = true) : m.rank? u = m.rank? v := by
  obtain ⟨hbits, hα⟩ := Valuation.beq_iff.mp h
  rw [rank?, rank?, hbits, hα]

/-- The rank of a valuation of the alphabet is the one at its number. -/
theorem rank?_of_alphabet (h : v.alphabet = m.alphabet) :
    m.rank? v = m.ranks.toList[v.trueBits.toNat]? := by
  rw [rank?, if_pos h, Array.getElem?_toList]

/-- A valuation of another alphabet has no rank. -/
theorem rank?_eq_none_of_ne (h : v.alphabet ≠ m.alphabet) :
    m.rank? v = none := by
  rw [rank?, if_neg h]

/-- A model has an entry for each valuation. -/
theorem length_entries (m : RankedModel) :
    m.entries.length = 1 <<< m.alphabet.size := by
  rw [entries, List.length_zip, Valuations.length_rest_valuations,
    Array.length_toList, m.size_ranks, Nat.min_self]

/-- **An entry is a listed valuation with the rank that is looked up.** -/
theorem mem_entries :
    (v, r) ∈ m.entries ↔
      v ∈ (m.alphabet.valuations true).rest ∧ m.rank? v = some r := by
  rw [entries, List.mem_iff_getElem?]
  simp only [List.getElem?_zip_eq_some]
  constructor
  · intro h
    obtain ⟨k, hv, hr⟩ := h
    have hmem := List.mem_of_getElem? hv
    refine ⟨hmem, ?_⟩
    rw [rank?_of_alphabet (Valuations.alphabet_of_mem_rest hmem),
      Valuations.toNat_trueBits_of_getElem? hv, hr]
  · intro h
    obtain ⟨hmem, hr⟩ := h
    obtain ⟨k, hv⟩ := List.mem_iff_getElem?.mp hmem
    rw [rank?_of_alphabet (Valuations.alphabet_of_mem_rest hmem),
      Valuations.toNat_trueBits_of_getElem? hv] at hr
    exact ⟨k, hv, hr⟩

/-- The ranks of the valuations of the alphabet at which a formula is true. -/
def ranksAt (m : RankedModel) (φ : Formula) : Set Rank :=
  {r | ∃ v : Valuation, v.alphabet = m.alphabet ∧ v.satisfies φ = true ∧
    m.rank? v = some r}

/-- The entries have all those ranks. -/
theorem mem_ranksAt_iff :
    r ∈ m.ranksAt φ ↔ ∃ v, (v, r) ∈ m.entries ∧ v.satisfies φ = true := by
  constructor
  · intro h
    obtain ⟨v, hα, hsat, hr⟩ := h
    -- A valuation that is not listed equals one that is.
    obtain ⟨w, hw, hbeq⟩ := Valuations.exists_getElem?_rest_beq true hα
    refine ⟨w, mem_entries.mpr ⟨List.mem_of_getElem? hw, ?_⟩, ?_⟩
    · rw [rank?_congr hbeq, hr]
    · rw [Valuation.satisfies, Valuation.value_eq_of_beq hbeq]
      exact hsat
  · intro h
    obtain ⟨v, hentry, hsat⟩ := h
    obtain ⟨hmem, hr⟩ := mem_entries.mp hentry
    exact ⟨v, Valuations.alphabet_of_mem_rest hmem, hsat, hr⟩

/-- **A ranked valuation is minimal for a formula exactly when its rank is a
lower bound of the ranks at the formula.** -/
theorem isMinimal_iff (h : m.rank? v = some r) :
    m.isMinimal φ v = true ↔ ∀ q ∈ m.ranksAt φ, r ≤ q := by
  rw [isMinimal, h]
  simp only [List.all_eq_true, Bool.not_eq_true', Bool.and_eq_false_iff,
    mem_ranksAt_iff]
  constructor
  · intro hall q hq
    obtain ⟨u, hentry, hsat⟩ := hq
    rcases hall (u, q) hentry with hnot | hfalse
    · rw [← not_lt]
      exact ne_of_beq_false hnot
    · rw [hsat] at hfalse
      cases hfalse
  · intro hall e hentry
    cases hsat : e.1.satisfies φ with
    | false => exact .inr rfl
    | true =>
        refine .inl (beq_false_of_ne ?_)
        exact not_lt.mpr (hall e.2 ⟨e.1, hentry, hsat⟩)

end RankedModel

end SystemZ
