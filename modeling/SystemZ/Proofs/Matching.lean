/-
  SystemZ.Proofs.Matching
  ───────────────────────
  **BASES THAT READ ALIKE HAVE THE SAME RANKS.**

  Two bases, each over an alphabet of its own, are compared along a relation
  between their valuations.  The ladder reads nothing of a conditional but the
  truth of its strict reading and of its antecedent.  So if every valuation of
  the first is related to one of the second, and every conditional of the
  second reads, at related valuations, like one of the first, then ranks do
  not grow from the first to the second; and where that holds both ways they
  are the same.

  The equation of the ranked model carries it: a finite bound on a rank is a
  statement on the conditionals and on the valuations of lower rank.

  Main results:
    `Follows.worldRank_le`   ranks do not grow along the relation
    `Matches.worldRank_eq`   they are the same where it goes both ways
    `Matches.usedRanks_eq`   and so are the ranks that the models give
    `Matches.ranksAt_eq`     and those at formulas that read alike
-/
import SystemZ.Proofs.AntecedentRanks
import SystemZ.Proofs.UsedRanks

namespace SystemZ

/-! ## §1. One way. -/

/-- At related valuations, two conditionals have strict readings and
antecedents of the same truth. -/
def Conditional.ReadAlike (R : Valuation → Valuation → Prop)
    (s t : Conditional) : Prop :=
  ∀ u v, R u v →
    u.satisfies s.materialize = v.satisfies t.materialize ∧
      u.satisfies s.antecedent = v.satisfies t.antecedent

theorem Conditional.ReadAlike.flip {R : Valuation → Valuation → Prop}
    {s t : Conditional} (h : s.ReadAlike R t) : t.ReadAlike (flip R) s :=
  fun u v huv => ⟨(h v u huv).1.symm, (h v u huv).2.symm⟩

/-- The base `kb'` over `β` follows `kb` over `α`: valuations of `α` have
related ones, and the conditionals of `kb'` read like some of `kb`. -/
structure Follows (R : Valuation → Valuation → Prop) (kb : KnowledgeBase)
    (α : Alphabet) (kb' : KnowledgeBase) (β : Alphabet) : Prop where
  exists_related : ∀ u : Valuation, u.alphabet = α →
    ∃ v : Valuation, v.alphabet = β ∧ R u v
  exists_readAlike : ∀ t ∈ kb', ∃ s ∈ kb, s.ReadAlike R t

variable {R : Valuation → Valuation → Prop} {kb kb' : KnowledgeBase}
  {α β : Alphabet} {u v : Valuation}

/-- A finite bound on a rank is one on the ranks of related valuations. -/
theorem Follows.worldRank_le_finite (h : Follows R kb α kb' β) (i : Nat)
    (huv : R u v) (hu : kb.worldRank α u ≤ .finite i) :
    kb'.worldRank β v ≤ .finite i := by
  -- By induction on the bound: what is met below it here is met there by a
  -- related valuation, whose rank is below it too.
  induction i using Nat.strong_induction_on generalizing u v with
  | _ i ih =>
      rw [KnowledgeBase.worldRank_le_iff] at hu ⊢
      intro t ht hfalse
      obtain ⟨s, hs, halike⟩ := h.exists_readAlike t ht
      have hfalse' : u.satisfies s.materialize = false := by
        rw [(halike u v huv).1, hfalse]
      obtain ⟨w, hw, hlt, hsat⟩ := hu s hs hfalse'
      obtain ⟨w', hw', hrelated⟩ := h.exists_related w hw
      obtain ⟨k, hk, hki⟩ := Rank.lt_finite_iff.mp hlt
      refine ⟨w', hw', ?_, ?_⟩
      · exact lt_of_le_of_lt (ih k hki hrelated (le_of_eq hk))
          (Rank.finite_lt_finite.mpr hki)
      · rw [← (halike w w' hrelated).2, hsat]

/-- **Ranks do not grow along the relation.** -/
theorem Follows.worldRank_le (h : Follows R kb α kb' β) (huv : R u v) :
    kb'.worldRank β v ≤ kb.worldRank α u :=
  Rank.le_of_forall_le_finite fun i => h.worldRank_le_finite i huv

/-! ## §2. Both ways. -/

/-- Each of two bases follows the other along a relation. -/
structure Matches (R : Valuation → Valuation → Prop) (kb : KnowledgeBase)
    (α : Alphabet) (kb' : KnowledgeBase) (β : Alphabet) : Prop where
  forth : Follows R kb α kb' β
  back : Follows (flip R) kb' β kb α

/-- Along a symmetric relation both ways look the same. -/
theorem Matches.of_symmetric [Std.Symm R]
    (hforth : Follows R kb α kb' β) (hback : Follows R kb' β kb α) :
    Matches R kb α kb' β where
  forth := hforth
  back := by
    rw [Std.Symm.flip_eq]
    exact hback

/-- **Related valuations have the same rank.** -/
theorem Matches.worldRank_eq (h : Matches R kb α kb' β) (huv : R u v) :
    kb.worldRank α u = kb'.worldRank β v :=
  le_antisymm (h.back.worldRank_le huv) (h.forth.worldRank_le huv)

/-- **The two models give the same ranks.** -/
theorem Matches.usedRanks_eq (h : Matches R kb α kb' β) :
    (kb.rankOver α).value.usedRanks = (kb'.rankOver β).value.usedRanks := by
  ext r
  rw [KnowledgeBase.mem_usedRanks_rankOver,
    KnowledgeBase.mem_usedRanks_rankOver]
  constructor
  · rintro ⟨u, hu, rfl⟩
    obtain ⟨v, hv, huv⟩ := h.forth.exists_related u hu
    exact ⟨v, hv, (h.worldRank_eq huv).symm⟩
  · rintro ⟨v, hv, rfl⟩
    obtain ⟨u, hu, huv⟩ := h.back.exists_related v hv
    exact ⟨u, hu, h.worldRank_eq huv⟩

/-- **Formulas of the same truth at related valuations have the same ranks.** -/
theorem Matches.ranksAt_eq (h : Matches R kb α kb' β) {φ ψ : Formula}
    (hread : ∀ u v, R u v → u.satisfies φ = v.satisfies ψ) :
    (kb.rankOver α).value.ranksAt φ = (kb'.rankOver β).value.ranksAt ψ := by
  ext r
  rw [KnowledgeBase.mem_ranksAt_rankOver, KnowledgeBase.mem_ranksAt_rankOver]
  constructor
  · intro hr
    obtain ⟨u, hu, hsat, rfl⟩ := hr
    obtain ⟨v, hv, huv⟩ := h.forth.exists_related u hu
    exact ⟨v, hv, (hread u v huv).symm.trans hsat, (h.worldRank_eq huv).symm⟩
  · intro hr
    obtain ⟨v, hv, hsat, rfl⟩ := hr
    obtain ⟨u, hu, huv⟩ := h.back.exists_related v hv
    exact ⟨u, hu, (hread u v huv).trans hsat, h.worldRank_eq huv⟩

end SystemZ
