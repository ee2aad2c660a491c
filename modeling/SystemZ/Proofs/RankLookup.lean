/-
  SystemZ.Proofs.RankLookup
  ─────────────────────────
  **LOOKING UP A RANK AGREES WITH WALKING THROUGH THE MODEL.**

  A ranked model looks a rank up at the mask of a valuation, and walks through
  valuations and ranks side by side.  There are as many ranks as masks, so a
  look-up never leaves the table, and a valuation that some caller built, with
  whatever it leaves unassigned, finds the rank of the listed one that equals
  it.  A valuation of another alphabet finds nothing.

  The valuations of a rank are a part of the walk.  The parts for different
  ranks have no valuation in common, and together they are the whole walk.

  Main results:
    `rank?_eq_none_iff`          who has no rank
    `rank?_eq_some_iff_entries`  look-up, by the walk
    `rank?_eq_some_iff_valuationsOfRank`
    `sum_length_valuationsOfRank`   the parts make up the whole
    `rank_lookup_agrees_with_iteration`
-/
import Mathlib.Algebra.BigOperators.Group.Finset.Basic
import SystemZ.Proofs.Ladder
import SystemZ.Proofs.ValuationOrder

namespace SystemZ

namespace RankedModel

variable {m : RankedModel} {u v : Valuation} {q r : Rank}

/-! ## §1. The walk. -/

/-- The walk meets the valuations of the alphabet, in the order of their
enumeration. -/
theorem map_fst_entries (m : RankedModel) :
    m.entries.map Prod.fst = (m.alphabet.valuations true).rest := by
  apply List.map_fst_zip
  rw [Valuations.length_rest_valuations, Array.length_toList, m.size_ranks]

/-- **It meets them in increasing order**, so none is met twice. -/
theorem pairwise_entries (m : RankedModel) :
    (m.entries.map Prod.fst).Pairwise fun v w => compare v w = .lt := by
  rw [map_fst_entries]
  exact Valuations.pairwise_rest _

/-- Exactly the valuations of the alphabet are met. -/
theorem exists_mem_entries_iff :
    (∃ e ∈ m.entries, (e.1 == v) = true) ↔ v.alphabet = m.alphabet := by
  constructor
  · intro h
    obtain ⟨e, he, hbeq⟩ := h
    have hα := Valuations.alphabet_of_mem_rest (mem_entries.mp he).1
    exact (Valuation.beq_iff.mp hbeq).2.symm.trans hα
  · intro hα
    obtain ⟨w, hw, hbeq⟩ := Valuations.exists_getElem?_rest_beq true hα
    have hmem : w ∈ m.entries.map Prod.fst := by
      rw [map_fst_entries]
      exact List.mem_of_getElem? hw
    obtain ⟨e, he, rfl⟩ := List.mem_map.mp hmem
    exact ⟨e, he, hbeq⟩

/-! ## §2. The look-up. -/

/-- A mask of the alphabet is a place of the table. -/
theorem toNat_trueBits_lt_size (h : v.alphabet = m.alphabet) :
    v.trueBits.toNat < m.ranks.size := by
  rw [m.size_ranks, Nat.one_shiftLeft, ← h]
  exact v.toNat_trueBits_lt

/-- **Exactly the valuations of another alphabet have no rank.** -/
theorem rank?_eq_none_iff : m.rank? v = none ↔ v.alphabet ≠ m.alphabet := by
  refine ⟨?_, rank?_eq_none_of_ne⟩
  intro hnone hα
  rw [rank?, if_pos hα, Array.getElem?_eq_none_iff] at hnone
  exact Nat.not_lt.mpr hnone (toNat_trueBits_lt_size hα)

/-- **The rank that is looked up is the one that the walk shows**, at the
listed valuation that equals the given one. -/
theorem rank?_eq_some_iff_entries :
    m.rank? v = some r ↔ ∃ u, (u, r) ∈ m.entries ∧ (u == v) = true := by
  constructor
  · intro hr
    have hα : v.alphabet = m.alphabet := by
      by_contra hne
      rw [rank?_eq_none_of_ne hne] at hr
      cases hr
    obtain ⟨u, hu, hbeq⟩ := Valuations.exists_getElem?_rest_beq true hα
    refine ⟨u, mem_entries.mpr ⟨List.mem_of_getElem? hu, ?_⟩, hbeq⟩
    rw [rank?_congr hbeq, hr]
  · intro h
    obtain ⟨u, hu, hbeq⟩ := h
    rw [← rank?_congr hbeq]
    exact (mem_entries.mp hu).2

/-! ## §3. The valuations of a rank. -/

theorem mem_valuationsOfRank :
    v ∈ m.valuationsOfRank r ↔ (v, r) ∈ m.entries := by
  rw [valuationsOfRank, List.mem_map]
  constructor
  · intro h
    obtain ⟨e, he, rfl⟩ := h
    obtain ⟨hmem, hrank⟩ := List.mem_filter.mp he
    rwa [← beq_iff_eq.mp hrank]
  · intro h
    exact ⟨(v, r), List.mem_filter.mpr ⟨h, beq_self_eq_true r⟩, rfl⟩

theorem rank?_eq_some_iff_valuationsOfRank :
    m.rank? v = some r ↔ ∃ u ∈ m.valuationsOfRank r, (u == v) = true := by
  rw [rank?_eq_some_iff_entries]
  simp only [mem_valuationsOfRank]

/-- They come in increasing order. -/
theorem pairwise_valuationsOfRank (m : RankedModel) (r : Rank) :
    (m.valuationsOfRank r).Pairwise fun v w => compare v w = .lt :=
  m.pairwise_entries.sublist (List.filter_sublist.map Prod.fst)

/-- **Different ranks have no valuation in common.** -/
theorem beq_eq_false_of_mem_valuationsOfRank (hqr : q ≠ r)
    (hu : u ∈ m.valuationsOfRank q) (hv : v ∈ m.valuationsOfRank r) :
    (u == v) = false := by
  rw [← Bool.not_eq_true]
  intro hbeq
  have hq := (mem_entries.mp (mem_valuationsOfRank.mp hu)).2
  have hr := (mem_entries.mp (mem_valuationsOfRank.mp hv)).2
  rw [rank?_congr hbeq, hr, Option.some.injEq] at hq
  exact hqr hq.symm

/-- There are as many valuations of a rank as the walk shows it. -/
theorem length_valuationsOfRank_eq_count (m : RankedModel) (r : Rank) :
    (m.valuationsOfRank r).length = (m.entries.map Prod.snd).count r := by
  rw [valuationsOfRank, List.length_map, List.count_eq_length_filter,
    List.filter_map, List.length_map]
  rfl

/-- **All valuations have one rank each**: those of the ranks that are given
at all make up the whole walk. -/
theorem sum_length_valuationsOfRank (m : RankedModel) :
    ∃ R : Finset Rank, (∀ r, r ∈ R ↔ m.valuationsOfRank r ≠ []) ∧
      ∑ r ∈ R, (m.valuationsOfRank r).length = 2 ^ m.alphabet.size := by
  refine ⟨(m.entries.map Prod.snd).toFinset, ?_, ?_⟩
  · intro r
    rw [List.mem_toFinset, ← List.count_pos_iff,
      ← length_valuationsOfRank_eq_count, List.length_pos_iff]
  · simp only [length_valuationsOfRank_eq_count]
    have hsum := Multiset.toFinset_sum_count_eq
      (m.entries.map Prod.snd : Multiset Rank)
    rw [Multiset.coe_card, List.length_map, length_entries,
      Nat.one_shiftLeft] at hsum
    simp only [Multiset.coe_count] at hsum
    exact hsum

end RankedModel

/-! ## §4. The model of a base. -/

/-- **Look-up by mask agrees with iteration.**  Over an alphabet of `n` atoms
the model of a base ranks exactly `2 ^ n` valuations, and the walk meets each
valuation of the alphabet once, in increasing order.  A valuation has no rank
exactly if it is of another alphabet.  Otherwise its mask is a place of the
table, and its rank is the one that the walk shows at the valuation that
equals it, and the one whose valuations it is among.  The valuations of a rank
come in increasing order, those of different ranks are different, and there
are `2 ^ n` in all. -/
theorem rank_lookup_agrees_with_iteration (kb : KnowledgeBase) (α : Alphabet) :
    ∃ t m, kb.minimalModel (some α) = .ok t ∧ t.value = m ∧
      m.alphabet = α ∧ m.size = 2 ^ α.size ∧
      m.entries.length = 2 ^ α.size ∧
      (m.entries.map Prod.fst).Pairwise (fun v w => compare v w = .lt) ∧
      (∀ v : Valuation,
        (∃ e ∈ m.entries, (e.1 == v) = true) ↔ v.alphabet = α) ∧
      (∀ v : Valuation, (m.rank? v = none ↔ v.alphabet ≠ α) ∧
        (v.alphabet = α → v.trueBits.toNat < m.ranks.size) ∧
        ∀ r, (m.rank? v = some r ↔
            ∃ u, (u, r) ∈ m.entries ∧ (u == v) = true) ∧
          (m.rank? v = some r ↔
            ∃ u ∈ m.valuationsOfRank r, (u == v) = true)) ∧
      (∀ r, (m.valuationsOfRank r).Pairwise fun v w => compare v w = .lt) ∧
      (∀ q r, q ≠ r → ∀ u ∈ m.valuationsOfRank q,
        ∀ v ∈ m.valuationsOfRank r, (u == v) = false) ∧
      ∃ R : Finset Rank, (∀ r, r ∈ R ↔ m.valuationsOfRank r ≠ []) ∧
        ∑ r ∈ R, (m.valuationsOfRank r).length = 2 ^ α.size := by
  refine ⟨kb.rankOver α, (kb.rankOver α).value, kb.minimalModel_some α, rfl,
    rfl, ?_, ?_, RankedModel.pairwise_entries _,
    fun v => RankedModel.exists_mem_entries_iff, ?_,
    RankedModel.pairwise_valuationsOfRank _, ?_,
    RankedModel.sum_length_valuationsOfRank _⟩
  · rw [RankedModel.size, RankedModel.size_ranks, Nat.one_shiftLeft]
    rfl
  · rw [RankedModel.length_entries, Nat.one_shiftLeft]
    rfl
  · intro v
    refine ⟨RankedModel.rank?_eq_none_iff, ?_, ?_⟩
    · intro hv
      exact RankedModel.toNat_trueBits_lt_size hv
    · intro r
      exact ⟨RankedModel.rank?_eq_some_iff_entries,
        RankedModel.rank?_eq_some_iff_valuationsOfRank⟩
  · intro q r hqr u hu v hv
    exact RankedModel.beq_eq_false_of_mem_valuationsOfRank hqr hu hv

/-- Birds are normally no penguins. -/
def birdsNoPenguins : KnowledgeBase :=
  .ofList [.normally (.literal (.positive ⟨"b"⟩))
    (.literal (.negative ⟨"p"⟩))]

theorem rank_lookup_of_openPenguin_agrees :
    ∃ t, birdsNoPenguins.minimalModel (some penguinAlphabet) = .ok t ∧
      openPenguin.alphabet = penguinAlphabet ∧
      openPenguin.isComplete = false ∧
      openPenguin.trueBits.toNat < t.value.ranks.size ∧
      t.value.rank? openPenguin = some (.finite 0) ∧
      (∃ u ∈ t.value.valuationsOfRank (.finite 0),
        (u == openPenguin) = true) ∧
      ∀ u ∈ t.value.valuationsOfRank (.finite 0),
        ∀ v ∈ t.value.valuationsOfRank (.finite 1), (u == v) = false := by
  obtain ⟨t, m, ht, rfl, _, _, _, _, _, hlookup, _, hdisjoint, _⟩ :=
    rank_lookup_agrees_with_iteration birdsNoPenguins penguinAlphabet
  have hrank : t.value.rank? openPenguin = some (.finite 0) := by
    rw [KnowledgeBase.minimalModel_some, Except.ok.injEq] at ht
    rw [← ht]
    decide +kernel
  obtain ⟨_, hrange, hranks⟩ := hlookup openPenguin
  exact ⟨t, ht, rfl, by decide, hrange rfl, hrank,
    (hranks (.finite 0)).2.mp hrank, hdisjoint _ _ (by decide)⟩

end SystemZ
