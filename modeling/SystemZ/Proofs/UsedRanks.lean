/-
  SystemZ.Proofs.UsedRanks
  ────────────────────────
  **WHICH RANKS A MODEL GIVES, AND TO WHOM.**

  A ranked model is known by the rank of each listed valuation.  Its greatest
  finite rank, and whether it gives an infinite one, depend only on the set of
  ranks that it gives to some valuation.

  In the model of a base the rank of a listed valuation is the one that the
  climb gives it, so the valuations of a rank are those of the enumeration
  with that rank, in order.

  Main results:
    `ext_of_rank?`             a model is known by the ranks it gives
    `rankOver_eq_of_worldRank_eq`   so that of a base, by the climb
    `maxFinite?_eq_some_iff`   the greatest finite rank, by the ranks given
    `hasInfinite_iff`          infinity, by the ranks given
    `valuationsOfRank_rankOver`
-/
import SystemZ.Proofs.Entries
import SystemZ.Proofs.Ladder

namespace SystemZ

namespace RankedModel

variable {m n : RankedModel} {r : Rank} {k : Nat}

/-! ## §1. The ranks that are given. -/

/-- The ranks that some valuation of the alphabet has. -/
def usedRanks (m : RankedModel) : Set Rank :=
  {r | ∃ v : Valuation, v.alphabet = m.alphabet ∧ m.rank? v = some r}

/-- Exactly the stored ranks are given. -/
theorem mem_ranks_iff : r ∈ m.ranks.toList ↔ r ∈ m.usedRanks := by
  constructor
  · intro h
    obtain ⟨i, hi⟩ := List.mem_iff_getElem?.mp h
    have hlt : i < 2 ^ m.alphabet.size := by
      have hsize : i < m.ranks.toList.length :=
        (List.getElem?_eq_some_iff.mp hi).1
      rwa [Array.length_toList, m.size_ranks, Nat.one_shiftLeft] at hsize
    -- Valuation number `i` has the rank stored at `i`.
    obtain ⟨v, hv, hbits⟩ := Valuations.getElem?_rest_valuations true hlt
    have hα := Valuations.alphabet_of_mem_rest (List.mem_of_getElem? hv)
    exact ⟨v, hα, by rw [rank?_of_alphabet hα, hbits, hi]⟩
  · intro h
    obtain ⟨v, hα, hr⟩ := h
    rw [rank?_of_alphabet hα] at hr
    exact List.mem_of_getElem? hr

theorem mem_finiteRanks_iff :
    k ∈ m.ranks.toList.filterMap Rank.finite? ↔ .finite k ∈ m.usedRanks := by
  have hfinite : ∀ r : Rank, r.finite? = some k ↔ r = .finite k := by
    intro r
    cases r <;> simp [Rank.finite?]
  rw [List.mem_filterMap, ← mem_ranks_iff]
  simp only [hfinite, exists_eq_right]

/-- **The greatest finite rank is the greatest that is given.** -/
theorem maxFinite?_eq_some_iff :
    m.maxFinite? = some k ↔ IsGreatest {i | .finite i ∈ m.usedRanks} k := by
  rw [maxFinite?, List.max?_eq_some_iff]
  simp only [mem_finiteRanks_iff]
  rfl

theorem maxFinite?_eq_none_iff :
    m.maxFinite? = none ↔ ∀ i, .finite i ∉ m.usedRanks := by
  rw [maxFinite?, List.max?_eq_none_iff, List.eq_nil_iff_forall_not_mem]
  simp only [mem_finiteRanks_iff]

/-- **Infinity is reported exactly when it is given.** -/
theorem hasInfinite_iff :
    m.hasInfinite = true ↔ .infinite ∈ m.usedRanks := by
  rw [hasInfinite, Array.contains_iff_mem, ← mem_ranks_iff,
    Array.mem_toList_iff]

/-- Models that give the same ranks have the same greatest finite one. -/
theorem maxFinite?_congr (h : m.usedRanks = n.usedRanks) :
    m.maxFinite? = n.maxFinite? := by
  apply Option.ext
  intro k
  rw [maxFinite?_eq_some_iff, maxFinite?_eq_some_iff, h]

theorem hasInfinite_congr (h : m.usedRanks = n.usedRanks) :
    m.hasInfinite = n.hasInfinite := by
  rw [Bool.eq_iff_iff, hasInfinite_iff, hasInfinite_iff, h]

/-! ## §2. Models by their ranks. -/

/-- **A model is known by the ranks of the listed valuations.** -/
theorem ext_of_rank? (hα : m.alphabet = n.alphabet)
    (h : ∀ v ∈ (m.alphabet.valuations true).rest, m.rank? v = n.rank? v) :
    m = n := by
  have hranks : m.ranks = n.ranks := by
    apply Array.ext_getElem?
    intro i
    by_cases hlt : i < 2 ^ m.alphabet.size
    · obtain ⟨v, hv, hbits⟩ := Valuations.getElem?_rest_valuations true hlt
      have hmem := List.mem_of_getElem? hv
      have hαm := Valuations.alphabet_of_mem_rest hmem
      have hsame := h v hmem
      rw [rank?_of_alphabet hαm, rank?_of_alphabet (hαm.trans hα), hbits,
        Array.getElem?_toList, Array.getElem?_toList] at hsame
      exact hsame
    · -- Past the last valuation neither model has a rank.
      have hm := m.size_ranks
      have hn := n.size_ranks
      rw [Nat.one_shiftLeft] at hm hn
      rw [← hα] at hn
      rw [Array.getElem?_eq_none (by omega), Array.getElem?_eq_none (by omega)]
  cases m
  cases n
  cases hα
  cases hranks
  rfl

end RankedModel

/-! ## §3. The model of a base. -/

namespace KnowledgeBase

variable {kb kb' : KnowledgeBase} {α : Alphabet} {r : Rank}

/-- Bases whose climbs rank every valuation alike have equal models. -/
theorem rankOver_eq_of_worldRank_eq (h : ∀ v : Valuation, v.alphabet = α →
      kb.worldRank α v = kb'.worldRank α v) :
    (kb.rankOver α).value = (kb'.rankOver α).value := by
  have hsame : (kb.rankOver α).value.alphabet =
      (kb'.rankOver α).value.alphabet := rfl
  apply RankedModel.ext_of_rank? hsame
  intro v hv
  have hα : v.alphabet = α := Valuations.alphabet_of_mem_rest hv
  rw [rank?_rankOver hα, rank?_rankOver hα, h v hα]

/-- The ranks that are given are those of the climb. -/
theorem mem_usedRanks_rankOver :
    r ∈ (kb.rankOver α).value.usedRanks ↔
      ∃ v : Valuation, v.alphabet = α ∧ kb.worldRank α v = r := by
  constructor
  · intro h
    obtain ⟨v, hv, hr⟩ := h
    have hα : v.alphabet = α := hv
    rw [rank?_rankOver hα, Option.some.injEq] at hr
    exact ⟨v, hα, hr⟩
  · intro h
    obtain ⟨v, hv, hr⟩ := h
    exact ⟨v, hv, by rw [rank?_rankOver hv, hr]⟩

/-- Listed valuations have all the ranks that are given. -/
theorem exists_listed_worldRank_eq_iff :
    (∃ v ∈ (α.valuations true).rest, kb.worldRank α v = r) ↔
      r ∈ (kb.rankOver α).value.usedRanks := by
  rw [mem_usedRanks_rankOver]
  constructor
  · intro h
    obtain ⟨v, hv, hr⟩ := h
    exact ⟨v, Valuations.alphabet_of_mem_rest hv, hr⟩
  · intro h
    obtain ⟨v, hv, hr⟩ := h
    obtain ⟨w, hw, hvalue⟩ := Valuations.exists_mem_rest_of_alphabet true hv
    have hsame : kb.worldRank α w = kb.worldRank α v :=
      Ladder.rankOn_congr hvalue
    exact ⟨w, hw, hsame.trans hr⟩

/-- The entries are the listed valuations with their ranks. -/
theorem entries_rankOver :
    (kb.rankOver α).value.entries =
      (α.valuations true).rest.map fun v => (v, kb.worldRank α v) := by
  rw [List.map_prod_left_eq_zip]
  rfl

/-- **The valuations of a rank**, in the order of the enumeration. -/
theorem valuationsOfRank_rankOver :
    (kb.rankOver α).value.valuationsOfRank r =
      (α.valuations true).rest.filter fun v => kb.worldRank α v == r := by
  rw [RankedModel.valuationsOfRank, entries_rankOver, List.filter_map,
    List.map_map]
  exact List.map_id _

end KnowledgeBase

end SystemZ
