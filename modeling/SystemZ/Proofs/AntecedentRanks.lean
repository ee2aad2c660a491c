/-
  SystemZ.Proofs.AntecedentRanks
  ──────────────────────────────
  **A CONDITIONAL RANKS WITH THE MOST NORMAL VALUATION WHERE IT APPLIES.**

  The stratification ranks conditionals without looking at valuations, and the
  ranked model ranks valuations without looking at ranks of conditionals.
  Over an alphabet that covers the base, a conditional is in level `i` exactly
  when its antecedent is true at no valuation of rank below `i`.  Said of all
  levels at once, its rank is the greatest lower bound of the ranks of the
  valuations at which its antecedent is true; so it is the least of them, or
  infinite if there are none.

  Main results:
    `KnowledgeBase.mem_ranksAt_rankOver`   the ranks at a formula, by the climb
    `Stratification.Sorts.isGLB_ranksAt`   the rank as greatest lower bound
    `Sorts.exists_rankOf?_eq_of_ranksAt_eq`   equal ranks from equal ones below
    `rankOf_isLeast_antecedent_rank`
-/
import SystemZ.Proofs.Agreement
import SystemZ.Proofs.Entries

namespace SystemZ

/-- The ranks at a formula in the model of a base are those of the climb. -/
theorem KnowledgeBase.mem_ranksAt_rankOver {kb : KnowledgeBase} {α : Alphabet}
    {φ : Formula} {q : Rank} :
    q ∈ (kb.rankOver α).value.ranksAt φ ↔
      ∃ u : Valuation, u.alphabet = α ∧ u.satisfies φ = true ∧
        kb.worldRank α u = q := by
  constructor
  · intro h
    obtain ⟨u, hu, hsat, hq⟩ := h
    have hα : u.alphabet = α := hu
    rw [rank?_rankOver hα, Option.some.injEq] at hq
    exact ⟨u, hα, hsat, hq⟩
  · intro h
    obtain ⟨u, hu, hsat, hq⟩ := h
    exact ⟨u, hu, hsat, by rw [rank?_rankOver hu, hq]⟩

/-- **The rank of a conditional is the greatest lower bound of the ranks at
its antecedent.** -/
theorem Stratification.Sorts.isGLB_ranksAt {z : Stratification}
    {kb : KnowledgeBase} {α : Alphabet} {s : Conditional} {r : Rank}
    (hz : z.Sorts exceptionalIn kb.toSet) (hα : ∀ a ∈ kb.atoms, a ∈ α.atoms)
    (hs : s ∈ kb) (hr : z.rankOf? s = some r) :
    IsGLB ((kb.rankOver α).value.ranksAt s.antecedent) r := by
  apply Rank.isGLB_of_finite_le_iff
  intro i
  have hlevel : .finite i ≤ r ↔ s ∈ exceptionalLevel kb.toSet i := by
    rw [exceptionalLevel, ← hz.le_rankOf?_iff exceptionalIn_subset hs, hr]
    simp
  rw [hlevel, KnowledgeBase.mem_exceptionalLevel_iff hα]
  simp only [KnowledgeBase.mem_ranksAt_rankOver]
  constructor
  · intro h q hq
    obtain ⟨u, hu, hsat, rfl⟩ := hq
    rw [← not_lt]
    intro hlt
    exact h.2 ⟨u, hu, hlt, hsat⟩
  · intro h
    refine ⟨hs, ?_⟩
    intro hmet
    obtain ⟨u, hu, hlt, hsat⟩ := hmet
    exact not_le.mpr hlt (h _ ⟨u, hu, hsat, rfl⟩)

/-- **Conditionals with the same ranks at their antecedents have the same
rank**, each in its own base and over its own alphabet. -/
theorem Stratification.Sorts.exists_rankOf?_eq_of_ranksAt_eq
    {z z' : Stratification} {kb kb' : KnowledgeBase} {α β : Alphabet}
    {s s' : Conditional} (hz : z.Sorts exceptionalIn kb.toSet)
    (hz' : z'.Sorts exceptionalIn kb'.toSet)
    (hα : ∀ a ∈ kb.atoms, a ∈ α.atoms) (hβ : ∀ a ∈ kb'.atoms, a ∈ β.atoms)
    (hs : s ∈ kb) (hs' : s' ∈ kb')
    (heq : (kb.rankOver α).value.ranksAt s.antecedent =
      (kb'.rankOver β).value.ranksAt s'.antecedent) :
    ∃ r, z.rankOf? s = some r ∧ z'.rankOf? s' = some r := by
  obtain ⟨r, hr⟩ := hz.exists_rankOf?_eq exceptionalIn_subset hs
  obtain ⟨r', hr'⟩ := hz'.exists_rankOf?_eq exceptionalIn_subset hs'
  have hglb := hz.isGLB_ranksAt hα hs hr
  rw [heq] at hglb
  have hsame : r = r' := hglb.unique (hz'.isGLB_ranksAt hβ hs' hr')
  exact ⟨r, hr, hsame ▸ hr'⟩

/-- **A conditional ranks with the most normal valuation where it applies.**
Let an alphabet cover a reserved-free base.  The rank of a conditional of the
base is the least rank, in the model, of a valuation at which its antecedent
is true, and infinite if there is no such valuation.  So the valuations that
are minimal for the antecedent are those of at most that rank. -/
theorem rankOf_isLeast_antecedent_rank {kb : KnowledgeBase} {α : Alphabet}
    (hres : kb.ReservedFree) (hα : ∀ a ∈ kb.atoms, a ∈ α.atoms) :
    ∃ t m, kb.stratify = .ok t ∧ kb.minimalModel (some α) = .ok m ∧
      m.value.alphabet = α ∧
      ∀ s ∈ kb, ∃ r, t.value.rankOf? s = some r ∧
        ((m.value.ranksAt s.antecedent).Nonempty →
          IsLeast (m.value.ranksAt s.antecedent) r) ∧
        (m.value.ranksAt s.antecedent = ∅ → r = .infinite) ∧
        ∀ v : Valuation, v.alphabet = α →
          ∃ q, m.value.rank? v = some q ∧
            (m.value.isMinimal s.antecedent v = true ↔ q ≤ r) := by
  obtain ⟨t, ht, hz⟩ :=
    KnowledgeBase.exists_stratify_eq_ok hres (Alphabet.size_le_of_subset hα)
  refine ⟨t, kb.rankOver α, ht, kb.minimalModel_some α, rfl, ?_⟩
  intro s hs
  obtain ⟨r, hr⟩ := hz.exists_rankOf?_eq exceptionalIn_subset hs
  have hglb := hz.isGLB_ranksAt hα hs hr
  refine ⟨r, hr, Rank.isLeast_of_isGLB hglb, ?_, ?_⟩
  · intro hempty
    rw [hempty] at hglb
    exact Rank.eq_infinite_of_isGLB_empty hglb
  · intro v hv
    have hrank : (kb.rankOver α).value.rank? v = some (kb.worldRank α v) :=
      KnowledgeBase.rank?_rankOver hv
    refine ⟨_, hrank, ?_⟩
    rw [RankedModel.isMinimal_iff hrank]
    exact (le_isGLB_iff hglb).symm

theorem rankOf_isLeast_antecedent_rank_of_penguins :
    penguins.ReservedFree ∧ (∀ a ∈ penguins.atoms, a ∈ birdAlphabet.atoms) ∧
      ∃ t m, penguins.stratify = .ok t ∧
        penguins.minimalModel (some birdAlphabet) = .ok m ∧
        ∀ s ∈ penguins, ∃ r, t.value.rankOf? s = some r ∧
          ((m.value.ranksAt s.antecedent).Nonempty →
            IsLeast (m.value.ranksAt s.antecedent) r) ∧
          (m.value.ranksAt s.antecedent = ∅ → r = .infinite) := by
  have hres : penguins.ReservedFree := by decide
  have hα : ∀ a ∈ penguins.atoms, a ∈ birdAlphabet.atoms :=
    SortedSet.subset_iff.mp (by decide)
  obtain ⟨t, m, ht, hm, _, hranks⟩ := rankOf_isLeast_antecedent_rank hres hα
  refine ⟨hres, hα, t, m, ht, hm, ?_⟩
  intro s hs
  obtain ⟨r, hr, hleast, hempty, _⟩ := hranks s hs
  exact ⟨r, hr, hleast, hempty⟩

end SystemZ
