/-
  SystemZ.Proofs.Levels
  ─────────────────────
  **A RANKED MODEL TAKES FEW ROUNDS AND LEAVES OUT NO RANK.**

  How many levels a ladder has depends on the rules, not on how many
  valuations climb it.  A level where somebody settles either meets a rule,
  which is pending no longer, or leaves the same rules to those who violate
  one, and then nobody settles one level up.  So there are at most two levels
  more than rules.

  On every level but the last somebody settles, so the finite ranks that are
  given are exactly the levels below the last.  Rank 0 is for those who obey
  all rules: the models of the strict readings.

  Main results:
    `length_climb_le`               at most two levels more than rules
    `exists_rankOn_climb_eq_iff`    no rank is left out
    `worldRank_eq_zero_iff`         rank 0 is for the models
    `minimalModel_relegates_by_levels`
-/
import Mathlib.Data.List.Forall2
import SystemZ.Proofs.Refutation
import SystemZ.Proofs.Relegation

namespace SystemZ

/-! ## §1. How many levels there are. -/

namespace Ladder

variable {pending : List Rule} {unranked settled violating : List Valuation}
  {u : Valuation} {i : Nat}

theorem climb_ne_nil (pending : List Rule) (unranked : List Valuation) :
    climb pending unranked ≠ [] := by
  rw [climb]
  split <;> exact List.cons_ne_nil _ _

/-- With the same rules, those who violate one settle no more one level up. -/
theorem settle_violating
    (h : settle pending unranked = (settled, violating)) :
    settle pending violating = ([], violating) := by
  have hall : ∀ v ∈ violating, obeys pending v = false :=
    fun v hv => ((mem_violating_iff h).mp hv).2
  rw [settle_eq, Prod.mk.injEq]
  constructor
  · rw [List.filter_eq_nil_iff]
    intro v hv
    rw [hall v hv]
    exact Bool.false_ne_true
  · rw [List.filter_eq_self]
    intro v hv
    rw [hall v hv]
    rfl

/-- **There are at most two levels more than pending rules.** -/
theorem length_climb_le (pending : List Rule) (unranked : List Valuation) :
    (climb pending unranked).length ≤ pending.length + 2 := by
  induction pending, unranked using climb.induct with
  | case1 pending unranked violating h =>
      rw [climb_of_stop h, List.length_singleton]
      exact Nat.le_add_left 1 _
  | case2 pending unranked u settled violating h ih =>
      rw [climb_of_step h, List.length_cons]
      have hsub : (stillPending pending (u :: settled)).Sublist pending :=
        List.filter_sublist
      by_cases hsame : (stillPending pending (u :: settled)).length =
          pending.length
      · -- No rule is met: the next level is the last.
        rw [hsub.eq_of_length hsame, climb_of_stop (settle_violating h),
          List.length_singleton]
        exact Nat.le_add_left 2 _
      · have hle := hsub.length_le
        omega

/-- Ranks above 0 are given to those who go on, by the rest of the climb. -/
theorem exists_rankOn_climb_eq_succ_iff
    (h : settle pending unranked = (u :: settled, violating)) :
    (∃ v ∈ unranked, rankOn (climb pending unranked) v = .finite (i + 1)) ↔
      ∃ v ∈ violating,
        rankOn (climb (stillPending pending (u :: settled)) violating) v =
          .finite i := by
  constructor
  · rintro ⟨v, hv, hrank⟩
    rw [rankOn_climb_of_step h] at hrank
    cases hobeys : obeys pending v with
    | true =>
        rw [hobeys, if_pos rfl] at hrank
        cases hrank
    | false =>
        rw [hobeys, if_neg Bool.false_ne_true,
          Rank.succ_eq_finite_succ_iff] at hrank
        exact ⟨v, (mem_violating_iff h).mpr ⟨hv, hobeys⟩, hrank⟩
  · rintro ⟨v, hv, hrank⟩
    obtain ⟨hmem, hobeys⟩ := (mem_violating_iff h).mp hv
    refine ⟨v, hmem, ?_⟩
    rw [rankOn_climb_of_step h, hobeys, if_neg Bool.false_ne_true, hrank,
      Rank.succ]

/-- **No rank is left out**: the listed valuations have exactly the levels
below the last as finite ranks. -/
theorem exists_rankOn_climb_eq_iff :
    (∃ v ∈ unranked, rankOn (climb pending unranked) v = .finite i) ↔
      i + 1 < (climb pending unranked).length := by
  induction pending, unranked using climb.induct generalizing i with
  | case1 pending unranked violating h =>
      rw [climb_of_stop h, List.length_singleton]
      constructor
      · rintro ⟨v, hv, hrank⟩
        rw [← climb_of_stop h, rankOn_climb_of_stop h,
          obeys_eq_false_of_stop h hv] at hrank
        cases hrank
      · intro hlt
        omega
  | case2 pending unranked u settled violating h ih =>
      rw [congrArg List.length (climb_of_step h), List.length_cons,
        Nat.add_lt_add_iff_right]
      cases i with
      | zero =>
          -- Whoever settles here has rank 0.
          obtain ⟨hmem, hobeys⟩ :=
            (mem_settled_iff h).mp (List.mem_cons_self : u ∈ u :: settled)
          have hrank : rankOn (climb pending unranked) u = .finite 0 := by
            rw [rankOn_climb_of_step h, hobeys, if_pos rfl]
          have hlength : 0 < (climb (stillPending pending (u :: settled))
              violating).length :=
            List.length_pos_iff.mpr (climb_ne_nil _ _)
          exact ⟨fun _ => hlength, fun _ => ⟨u, hmem, hrank⟩⟩
      | succ i =>
          rw [exists_rankOn_climb_eq_succ_iff h]
          exact ih

end Ladder

/-! ## §2. The model of a base. -/

namespace KnowledgeBase

variable {kb : KnowledgeBase} {α : Alphabet} {v : Valuation} {i : Nat}

/-- The levels of a base over an alphabet. -/
def levelCount (kb : KnowledgeBase) (α : Alphabet) : Nat :=
  (Ladder.climb (Ladder.rules kb) (α.valuations true).rest).length

theorem levelCount_le : kb.levelCount α ≤ kb.size + 2 := by
  have hlength : (Ladder.rules kb).length = kb.size := by
    rw [Ladder.rules, List.length_map]
    rfl
  rw [← hlength]
  exact Ladder.length_climb_le _ _

/-- Every level is reported as one round. -/
theorem rounds_rankOver : (kb.rankOver α).rounds = kb.levelCount α := by
  show List.countP Event.isRound (List.map _ (List.zipIdx _) ++ [_]) = _
  rw [List.countP_append, List.countP_map, List.countP_eq_length.mpr,
    List.length_zipIdx]
  · rfl
  · intro x _
    rfl

/-- **The finite ranks that are given are the levels below the last.** -/
theorem finite_mem_usedRanks_iff :
    .finite i ∈ (kb.rankOver α).value.usedRanks ↔
      i + 1 < kb.levelCount α := by
  rw [← exists_listed_worldRank_eq_iff]
  exact Ladder.exists_rankOn_climb_eq_iff

/-- **Rank 0 is for the models of the strict readings.** -/
theorem worldRank_eq_zero_iff :
    kb.worldRank α v = .finite 0 ↔
      v.satisfiesAll kb.materialized.toList = true := by
  have hzero : kb.worldRank α v = .finite 0 ↔
      kb.worldRank α v ≤ .finite 0 := by
    rw [le_iff_lt_or_eq]
    simp
  rw [hzero, worldRank_le_iff, Valuation.satisfiesAll_iff]
  simp only [SortedSet.mem_toList, mem_materialized]
  constructor
  · intro h f hf
    obtain ⟨s, hs, rfl⟩ := hf
    rw [← Bool.not_eq_false]
    intro hfalse
    obtain ⟨u, _, hlt, _⟩ := h s hs hfalse
    exact absurd hlt (Rank.not_lt_zero _)
  · intro h s hs hfalse
    have htrue : v.satisfies s.materialize = true :=
      h s.materialize ⟨s, hs, rfl⟩
    rw [htrue] at hfalse
    cases hfalse

end KnowledgeBase

/-! ## §3. Rank 0 and the models, in order. -/

/-- **The valuations of rank 0 are the models**, in the same order. -/
theorem KnowledgeBase.forall₂_valuationsOfRank_zero (kb : KnowledgeBase)
    (α : Alphabet) :
    List.Forall₂ (fun v w => (v == w) = true)
      ((kb.rankOver α).value.valuationsOfRank (.finite 0))
      (Models.toList ⟨kb.materialized.toList, α.valuations false⟩) := by
  rw [valuationsOfRank_rankOver, Models.toList]
  refine List.rel_filter ?_ (Valuations.forall₂_beq_rest α true false)
  intro v w hbeq
  have hvalue : v.value = w.value := Valuation.value_eq_of_beq hbeq
  show (kb.worldRank α v == .finite 0) = true ↔ w.satisfiesAll _ = true
  rw [beq_iff_eq, worldRank_eq_zero_iff, Valuation.satisfiesAll_iff,
    Valuation.satisfiesAll_iff, hvalue]

/-! ## §4. The construction. -/

namespace KnowledgeBase

variable {kb : KnowledgeBase} {α : Alphabet} {k : Nat}

/-- **No rank below the greatest finite one is left out**, and there are not
more of them than conditionals. -/
theorem no_gap_of_maxFinite?_eq
    (h : (kb.rankOver α).value.maxFinite? = some k) :
    k ≤ kb.size ∧
      ∀ i ≤ k, .finite i ∈ (kb.rankOver α).value.usedRanks := by
  have hmem : .finite k ∈ (kb.rankOver α).value.usedRanks :=
    (RankedModel.maxFinite?_eq_some_iff.mp h).1
  rw [finite_mem_usedRanks_iff] at hmem
  have hcount : kb.levelCount α ≤ kb.size + 2 := levelCount_le
  refine ⟨by omega, ?_⟩
  intro i hi
  rw [finite_mem_usedRanks_iff]
  omega

/-- Without a finite rank every valuation has the infinite one. -/
theorem maxFinite?_eq_none_iff_forall :
    (kb.rankOver α).value.maxFinite? = none ↔
      ∀ v : Valuation, v.alphabet = α →
        (kb.rankOver α).value.rank? v = some .infinite := by
  rw [RankedModel.maxFinite?_eq_none_iff]
  simp only [mem_usedRanks_rankOver]
  constructor
  · intro hnone v hv
    rw [rank?_rankOver hv]
    cases hrank : kb.worldRank α v with
    | finite i => exact absurd ⟨v, hv, hrank⟩ (hnone i)
    | infinite => rfl
  · intro hall i hgiven
    obtain ⟨v, hv, hrank⟩ := hgiven
    have hinfinite := hall v hv
    rw [rank?_rankOver hv, hrank] at hinfinite
    cases hinfinite

/-- **Some rank is finite exactly when the strict readings are satisfiable.**
-/
theorem satisfiable_materialized :
    satisfiable kb.materialized.toList (some α) =
      .ok (kb.rankOver α).value.maxFinite?.isSome := by
  -- Some finite rank is given exactly when rank 0 is.
  have hzero : (kb.rankOver α).value.maxFinite?.isSome = true ↔
      .finite 0 ∈ (kb.rankOver α).value.usedRanks := by
    rw [Option.isSome_iff_exists]
    constructor
    · intro h
      obtain ⟨k, hk⟩ := h
      exact (no_gap_of_maxFinite?_eq hk).2 0 (Nat.zero_le k)
    · intro hmem
      rw [← Option.ne_none_iff_exists', ne_eq,
        RankedModel.maxFinite?_eq_none_iff]
      intro hnone
      exact hnone 0 hmem
  show Except.ok (Models.next? ⟨_, α.valuations false⟩).isSome = _
  rw [Except.ok.injEq, Bool.eq_iff_iff, Models.isSome_next?_iff, hzero,
    mem_usedRanks_rankOver]
  simp only [worldRank_eq_zero_iff]
  constructor
  · intro h
    obtain ⟨v, hv, hsat⟩ := h
    exact ⟨v, Valuations.alphabet_of_mem_rest hv, hsat⟩
  · intro h
    obtain ⟨v, hv, hsat⟩ := h
    obtain ⟨w, hw, hvalue⟩ := Valuations.exists_mem_rest_of_alphabet false hv
    rw [Valuation.satisfiesAll_iff, ← hvalue] at hsat
    exact ⟨w, hw, Valuation.satisfiesAll_iff.mpr hsat⟩

end KnowledgeBase

/-- **The construction of a ranked model ends fast and leaves out no rank.**
It is a relegation of at most two rounds more than there are conditionals,
however many atoms the alphabet has, and reports each of them.  All ranks up
to the greatest finite one are given, and that is at most the number of
conditionals.  There is a finite rank exactly when the strict readings are
satisfiable over the alphabet, and the valuations of rank 0 are their models.
-/
theorem minimalModel_relegates_by_levels (kb : KnowledgeBase) (α : Alphabet) :
    ∃ m rounds ms, kb.minimalModel (some α) = .ok m ∧
      Relegation kb 0 (.flat α) (α.valuations true).rest rounds m.value ∧
      m.rounds = rounds ∧ rounds ≤ kb.size + 2 ∧
      (∀ k, m.value.maxFinite? = some k →
        k ≤ kb.size ∧ ∀ i ≤ k, .finite i ∈ m.value.usedRanks) ∧
      (m.value.maxFinite? = none ↔ ∀ v : Valuation, v.alphabet = α →
        m.value.rank? v = some .infinite) ∧
      satisfiable kb.materialized.toList (some α) =
        .ok m.value.maxFinite?.isSome ∧
      models kb.materialized.toList (some α) = .ok ms ∧
      List.Forall₂ (fun v w => (v == w) = true)
        (m.value.valuationsOfRank (.finite 0)) ms.toList := by
  refine ⟨kb.rankOver α, kb.levelCount α,
    ⟨kb.materialized.toList, α.valuations false⟩,
    KnowledgeBase.minimalModel_some kb α, relegation_rankOver kb α,
    KnowledgeBase.rounds_rankOver, KnowledgeBase.levelCount_le, ?_,
    KnowledgeBase.maxFinite?_eq_none_iff_forall,
    KnowledgeBase.satisfiable_materialized, rfl,
    kb.forall₂_valuationsOfRank_zero α⟩
  intro k hk
  exact KnowledgeBase.no_gap_of_maxFinite?_eq hk

end SystemZ
