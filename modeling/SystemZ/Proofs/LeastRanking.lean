/-
  SystemZ.Proofs.LeastRanking
  ───────────────────────────
  **THE RANKED MODEL IS THE LEAST RANKING THAT SATISFIES ITS BASE.**

  A ranking of the valuations of an alphabet satisfies a base when a valuation
  of finite rank may falsify a strict reading only above a valuation at which
  the antecedent is true.  Nothing is asked of the conditionals: rankings
  compete over all bases and all alphabets.

  The equation of the ranked model makes both halves short.  It satisfies the
  base by its own instance; and a competitor that puts a valuation at `n` can
  be followed downwards, by strong induction on `n`, to see that the model has
  put it no higher.

  Main results:
    `satisfiedBy_worldRank`        the model satisfies its base
    `worldRank_le_of_satisfiedBy`  and lies below every ranking that does
-/
import SystemZ.Proofs.Ladder

namespace SystemZ

namespace KnowledgeBase

/-- A ranking of the valuations of an alphabet satisfies a base. -/
def SatisfiedBy (kb : KnowledgeBase) (α : Alphabet) (ρ : Valuation → Rank) :
    Prop :=
  ∀ s ∈ kb, ∀ v : Valuation, v.alphabet = α → (ρ v).isFinite = true →
    v.satisfies s.materialize = false →
      ∃ u : Valuation, u.alphabet = α ∧ ρ u < ρ v ∧
        u.satisfies s.antecedent = true

variable {kb : KnowledgeBase} {α : Alphabet}

theorem satisfiedBy_worldRank : kb.SatisfiedBy α (kb.worldRank α) := by
  intro s hs v _ hfinite hfalse
  cases hrank : kb.worldRank α v with
  | infinite =>
      rw [hrank] at hfinite
      cases hfinite
  | finite i =>
      exact worldRank_le_iff.mp hrank.le s hs hfalse

/-- Whatever finite rank a satisfying ranking gives, the model gives no
greater one. -/
theorem worldRank_le_of_eq_finite {ρ : Valuation → Rank}
    (hρ : kb.SatisfiedBy α ρ) {v : Valuation} (hv : v.alphabet = α) {n : Nat}
    (hn : ρ v = .finite n) : kb.worldRank α v ≤ .finite n := by
  induction n using Nat.strongRecOn generalizing v with
  | ind n ih =>
      rw [worldRank_le_iff]
      intro s hs hfalse
      obtain ⟨u, hu, hlt, hsat⟩ := hρ s hs v hv (by rw [hn]; rfl) hfalse
      refine ⟨u, hu, ?_, hsat⟩
      -- The competitor's witness has a smaller finite rank, and the model
      -- ranks it no higher than the competitor does.
      rw [hn] at hlt
      cases hm : ρ u with
      | infinite =>
          rw [hm] at hlt
          exact absurd hlt (Rank.not_infinite_lt _)
      | finite m =>
          rw [hm, Rank.finite_lt_finite] at hlt
          exact lt_of_le_of_lt (ih m hlt hu hm) (Rank.finite_lt_finite.mpr hlt)

theorem worldRank_le_of_satisfiedBy {ρ : Valuation → Rank}
    (hρ : kb.SatisfiedBy α ρ) {v : Valuation} (hv : v.alphabet = α) :
    kb.worldRank α v ≤ ρ v := by
  cases hn : ρ v with
  | infinite => exact Rank.le_infinite _
  | finite n => exact worldRank_le_of_eq_finite hρ hv hn

/-- **The minimal ranked model is minimal.**  Over any alphabet the model of
any base ranks every valuation, satisfies the base, and ranks each valuation
at most as high as every ranking that satisfies the base. -/
theorem minimalModel_isLeast (kb : KnowledgeBase) (α : Alphabet) :
    ∃ m ρ, kb.minimalModel (some α) = .ok m ∧
      (∀ v : Valuation, v.alphabet = α → m.value.rank? v = some (ρ v)) ∧
      kb.SatisfiedBy α ρ ∧
      ∀ ρ', kb.SatisfiedBy α ρ' →
        ∀ v : Valuation, v.alphabet = α → ρ v ≤ ρ' v := by
  refine ⟨kb.rankOver α, kb.worldRank α, kb.minimalModel_some α, ?_, ?_, ?_⟩
  · intro v hv
    exact rank?_rankOver hv
  · exact satisfiedBy_worldRank
  · intro ρ' hρ' v hv
    exact worldRank_le_of_satisfiedBy hρ' hv

end KnowledgeBase

end SystemZ
