/-
  SystemZ.Proofs.Violations
  ─────────────────────────
  **INFINITE RANK MEANS: STILL VIOLATES A CONDITIONAL.**

  The construction moves a valuation up while it violates a conditional in the
  table of ranks as it stands at that moment.  Whether it violates one in the
  finished model is another question, and it has a simple answer: exactly the
  valuations of infinite rank do.

  A valuation of finite rank violates nothing, because the model satisfies its
  base.  A valuation of infinite rank falsifies some conditional that no
  valuation of finite rank meets, and violates that one.  For if each
  conditional it falsifies were met at a finite rank, all of them would be met
  below the last level of the climb, and it would have settled there.

  Main results:
    `violates_iff`                a violation, by the ranks at the antecedent
    `worldRank_eq_infinite_iff`   infinite rank, by what is never met
    `infinite_rank_iff_violates`
-/
import SystemZ.Proofs.AntecedentRanks
import SystemZ.Proofs.LeastRanking
import SystemZ.Proofs.Levels

namespace SystemZ

/-! ## §1. Violations in any model. -/

namespace RankedModel

variable {m : RankedModel} {v : Valuation} {r : Rank} {φ : Formula}
  {s : Conditional}

/-- A ranked valuation violates a conditional that it falsifies if its rank is
a lower bound of the ranks at the antecedent. -/
theorem violates_iff (h : m.rank? v = some r) :
    m.violates s v = true ↔
      (∀ q ∈ m.ranksAt s.antecedent, r ≤ q) ∧
        v.satisfies s.materialize = false := by
  rw [violates, Bool.and_eq_true, Bool.not_eq_true', isMinimal_iff h]

/-- What has no rank is minimal for no formula, and violates nothing. -/
theorem isMinimal_eq_false_of_rank?_eq_none (h : m.rank? v = none) :
    m.isMinimal φ v = false := by
  rw [isMinimal, h]

theorem violates_eq_false_of_rank?_eq_none (h : m.rank? v = none) :
    m.violates s v = false := by
  rw [violates, isMinimal_eq_false_of_rank?_eq_none h, Bool.false_and]

end RankedModel

/-! ## §2. Infinite ranks. -/

namespace KnowledgeBase

variable {kb : KnowledgeBase} {α : Alphabet} {u v : Valuation}
  {s : Conditional}

/-- Finite ranks lie below the number of levels. -/
theorem worldRank_lt_levelCount (hu : u.alphabet = α)
    (hfinite : kb.worldRank α u ≠ .infinite) :
    kb.worldRank α u < .finite (kb.levelCount α) := by
  cases hrank : kb.worldRank α u with
  | infinite => exact absurd hrank hfinite
  | finite i =>
      have hused : .finite i ∈ (kb.rankOver α).value.usedRanks :=
        mem_usedRanks_rankOver.mpr ⟨u, hu, hrank⟩
      rw [finite_mem_usedRanks_iff] at hused
      rw [Rank.finite_lt_finite]
      omega

/-- **A valuation has infinite rank exactly when it falsifies a conditional
whose antecedent is true at infinite ranks only.** -/
theorem worldRank_eq_infinite_iff :
    kb.worldRank α v = .infinite ↔
      ∃ s ∈ kb, v.satisfies s.materialize = false ∧
        ∀ u : Valuation, u.alphabet = α → u.satisfies s.antecedent = true →
          kb.worldRank α u = .infinite := by
  constructor
  · intro hv
    by_contra hmet
    push Not at hmet
    -- One bound for all conditionals that are falsified.
    have hle : kb.worldRank α v ≤ .finite (kb.levelCount α) := by
      rw [worldRank_le_iff]
      intro s hs hfalse
      obtain ⟨u, hu, hsat, hfinite⟩ := hmet s hs hfalse
      exact ⟨u, hu, worldRank_lt_levelCount hu hfinite, hsat⟩
    exact Rank.forall_not_le_finite_iff.mpr hv _ hle
  · intro hstuck
    obtain ⟨s, hs, hfalse, hunmet⟩ := hstuck
    rw [← Rank.forall_not_le_finite_iff]
    intro i hle
    obtain ⟨u, hu, hlt, hsat⟩ := worldRank_le_iff.mp hle s hs hfalse
    rw [hunmet u hu hsat] at hlt
    exact Rank.not_infinite_lt _ hlt

/-- A violation in the model of a base, by the ranks of the climb. -/
theorem violates_rankOver_iff (hv : v.alphabet = α) :
    (kb.rankOver α).value.violates s v = true ↔
      (∀ u : Valuation, u.alphabet = α → u.satisfies s.antecedent = true →
        kb.worldRank α v ≤ kb.worldRank α u) ∧
        v.satisfies s.materialize = false := by
  rw [RankedModel.violates_iff (rank?_rankOver hv)]
  simp only [mem_ranksAt_rankOver]
  constructor
  · intro h
    refine ⟨?_, h.2⟩
    intro u hu hsat
    exact h.1 _ ⟨u, hu, hsat, rfl⟩
  · intro h
    refine ⟨?_, h.2⟩
    intro q hq
    obtain ⟨u, hu, hsat, hrank⟩ := hq
    rw [← hrank]
    exact h.1 u hu hsat

/-- A valuation of finite rank violates nothing. -/
theorem not_violates_of_isFinite (hv : v.alphabet = α) (hs : s ∈ kb)
    (hfinite : (kb.worldRank α v).isFinite = true) :
    ¬ (kb.rankOver α).value.violates s v = true := by
  rw [violates_rankOver_iff hv]
  intro h
  obtain ⟨u, hu, hlt, hsat⟩ := satisfiedBy_worldRank s hs v hv hfinite h.2
  exact not_le.mpr hlt (h.1 u hu hsat)

theorem worldRank_eq_infinite_iff_violates (hv : v.alphabet = α) :
    kb.worldRank α v = .infinite ↔
      ∃ s ∈ kb, (kb.rankOver α).value.violates s v = true := by
  constructor
  · intro hrank
    obtain ⟨s, hs, hfalse, hunmet⟩ := worldRank_eq_infinite_iff.mp hrank
    refine ⟨s, hs, ?_⟩
    rw [violates_rankOver_iff hv]
    refine ⟨?_, hfalse⟩
    intro u hu hsat
    rw [hunmet u hu hsat]
    exact Rank.le_infinite _
  · intro h
    obtain ⟨s, hs, hviolates⟩ := h
    cases hrank : kb.worldRank α v with
    | infinite => rfl
    | finite i =>
        have hfinite : (kb.worldRank α v).isFinite = true := by
          rw [hrank]
          rfl
        exact absurd hviolates (not_violates_of_isFinite hv hs hfinite)

end KnowledgeBase

/-! ## §3. The model of a base. -/

/-- **Infinite rank means that a conditional is still violated.**  Over any
alphabet, the model of any base ranks every valuation, whether or not it
assigns all atoms, and gives it infinite rank exactly when the valuation
violates a conditional of the base in the finished model.  A valuation of
another alphabet has no rank, is minimal for no formula and violates no
conditional at all. -/
theorem infinite_rank_iff_violates (kb : KnowledgeBase) (α : Alphabet) :
    ∃ m, kb.minimalModel (some α) = .ok m ∧
      (∀ v : Valuation, v.alphabet = α →
        (∃ r, m.value.rank? v = some r) ∧
        (m.value.rank? v = some .infinite ↔
          ∃ s ∈ kb, m.value.violates s v = true)) ∧
      ∀ v : Valuation, v.alphabet ≠ α →
        m.value.rank? v = none ∧
        (∀ φ, m.value.isMinimal φ v = false) ∧
        ∀ s, m.value.violates s v = false := by
  refine ⟨kb.rankOver α, kb.minimalModel_some α, ?_, ?_⟩
  · intro v hv
    have hrank : (kb.rankOver α).value.rank? v = some (kb.worldRank α v) :=
      KnowledgeBase.rank?_rankOver hv
    refine ⟨⟨_, hrank⟩, ?_⟩
    rw [hrank, Option.some.injEq]
    exact KnowledgeBase.worldRank_eq_infinite_iff_violates hv
  · intro v hv
    have hnone : (kb.rankOver α).value.rank? v = none :=
      RankedModel.rank?_eq_none_of_ne hv
    refine ⟨hnone, ?_, ?_⟩
    · intro φ
      exact RankedModel.isMinimal_eq_false_of_rank?_eq_none hnone
    · intro s
      exact RankedModel.violates_eq_false_of_rank?_eq_none hnone

/-- A penguin of which nothing else is said, so that it is no bird. -/
def lonePenguin : Valuation := .positive birdAlphabet 4 (by decide)

theorem lonePenguin_still_violates :
    lonePenguin.alphabet = birdAlphabet ∧ lonePenguin.isComplete = false ∧
      ∃ m, penguins.minimalModel (some birdAlphabet) = .ok m ∧
        m.value.rank? lonePenguin = some .infinite ∧
        ∃ s ∈ penguins, m.value.violates s lonePenguin = true := by
  obtain ⟨m, hm, hover, _⟩ := infinite_rank_iff_violates penguins birdAlphabet
  have hrank : m.value.rank? lonePenguin = some .infinite := by
    rw [KnowledgeBase.minimalModel_some, Except.ok.injEq] at hm
    rw [← hm]
    decide +kernel
  exact ⟨rfl, by decide, m, hm, hrank, (hover lonePenguin rfl).2.mp hrank⟩

end SystemZ
