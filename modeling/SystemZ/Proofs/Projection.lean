/-
  SystemZ.Proofs.Projection
  ─────────────────────────
  **ATOMS THAT A BASE DOES NOT USE CHANGE NO RANK.**

  Over a larger alphabet there are more valuations, and the atoms of the base
  sit at other positions.  But a conditional reads the same at any two
  valuations that agree on the atoms of the base, whatever their alphabets; so
  the two models match along that agreement.  A valuation and its projection
  to a smaller alphabet agree on it, as long as the smaller alphabet has all
  atoms of the base.

  Main results:
    `matches_agreeOn`       the models over two alphabets match
    `rankOver_projectsTo`   the larger model projects to the smaller one
    `minimalModel_projects_to_covering_alphabets`
-/
import SystemZ.Proofs.Agreement
import SystemZ.Proofs.Matching

namespace SystemZ

/-! ## §1. Agreement and projection. -/

namespace Valuation

/-- The two valuations give the atoms of a set the same values. -/
def AgreeOn (s : SortedSet Atom) (u v : Valuation) : Prop :=
  ∀ a ∈ s, u.value a = v.value a

/-- The atoms that are true at `v` are those of its alphabet that are true at
`w`. -/
def IsProjection (v w : Valuation) : Prop :=
  ∀ a, v.value a = true ↔ a ∈ v.alphabet.atoms ∧ w.value a = true

variable {v w : Valuation} {s : SortedSet Atom}

instance : Std.Symm (AgreeOn s) where
  symm _ _ h a ha := (h a ha).symm

/-- A valuation and its projection agree on atoms of the smaller alphabet. -/
theorem IsProjection.agreeOn (h : v.IsProjection w)
    (hs : ∀ a ∈ s, a ∈ v.alphabet.atoms) : AgreeOn s v w := by
  intro a ha
  rw [Bool.eq_iff_iff, h a, and_iff_right (hs a ha)]

/-- Every valuation has a projection to each alphabet. -/
theorem exists_isProjection (w : Valuation) (α : Alphabet) :
    ∃ v : Valuation, v.alphabet = α ∧ v.IsProjection w := by
  obtain ⟨v, hv, hagree⟩ :=
    Valuations.exists_mem_rest_of_assignment α true w.value
  have hα : v.alphabet = α := Valuations.alphabet_of_mem_rest hv
  refine ⟨v, hα, ?_⟩
  intro a
  by_cases ha : a ∈ α.atoms
  · rw [hagree a ha, hα, and_iff_right ha]
  · rw [value_of_not_mem (hα ▸ ha), hα]
    simp [ha]

end Valuation

/-! ## §2. One base over two alphabets. -/

namespace KnowledgeBase

variable {kb : KnowledgeBase} {α β : Alphabet}

/-- Over any two alphabets of which the second has the atoms of the base, the
base follows itself along agreement on them. -/
theorem follows_agreeOn (hβ : ∀ a ∈ kb.atoms, a ∈ β.atoms) :
    Follows (Valuation.AgreeOn kb.atoms) kb α kb β where
  exists_related u _ := by
    obtain ⟨v, hv, hagree⟩ :=
      Valuations.exists_mem_rest_of_assignment β true u.value
    refine ⟨v, Valuations.alphabet_of_mem_rest hv, ?_⟩
    intro a ha
    exact (hagree a (hβ a ha)).symm
  exists_readAlike s hs := by
    refine ⟨s, hs, ?_⟩
    intro u v huv
    have hread : ∀ a ∈ s.atoms, u.value a = v.value a :=
      fun a ha => huv a (mem_atoms_of_mem hs ha)
    constructor
    · apply Valuation.satisfies_congr
      intro a ha
      exact hread a (Conditional.mem_atoms_of_materialize ha)
    · apply Valuation.satisfies_congr
      intro a ha
      exact hread a (Conditional.mem_atoms_of_antecedent ha)

/-- **The models of a base over two covering alphabets match.** -/
theorem matches_agreeOn (hα : ∀ a ∈ kb.atoms, a ∈ α.atoms)
    (hβ : ∀ a ∈ kb.atoms, a ∈ β.atoms) :
    Matches (Valuation.AgreeOn kb.atoms) kb α kb β :=
  .of_symmetric (follows_agreeOn hβ) (follows_agreeOn hα)

end KnowledgeBase

/-! ## §3. Projections of models. -/

/-- The model `n` has the ranks of `m` along projection: every valuation of
`n` has a projection to the alphabet of `m`, and each with the same rank. -/
structure RankedModel.ProjectsTo (n m : RankedModel) : Prop where
  exists_projection : ∀ w : Valuation, w.alphabet = n.alphabet →
    ∃ v : Valuation, v.alphabet = m.alphabet ∧ v.IsProjection w
  rank?_eq : ∀ w : Valuation, w.alphabet = n.alphabet →
    ∀ v : Valuation, v.alphabet = m.alphabet → v.IsProjection w →
      ∃ r, n.rank? w = some r ∧ m.rank? v = some r
  maxFinite?_eq : n.maxFinite? = m.maxFinite?
  hasInfinite_eq : n.hasInfinite = m.hasInfinite

namespace KnowledgeBase

variable {kb : KnowledgeBase} {α β : Alphabet}

/-- **The model over the larger alphabet projects to the smaller one.** -/
theorem rankOver_projectsTo (hα : ∀ a ∈ kb.atoms, a ∈ α.atoms)
    (hαβ : ∀ a ∈ α.atoms, a ∈ β.atoms) :
    (kb.rankOver β).value.ProjectsTo (kb.rankOver α).value := by
  have hβ : ∀ a ∈ kb.atoms, a ∈ β.atoms := fun a ha => hαβ a (hα a ha)
  have hmatch := matches_agreeOn hα hβ
  refine ⟨?_, ?_, ?_, ?_⟩
  · intro w _
    exact w.exists_isProjection α
  · intro w hw v hv hproj
    have hw : w.alphabet = β := hw
    have hv : v.alphabet = α := hv
    have hagree : Valuation.AgreeOn kb.atoms v w :=
      hproj.agreeOn fun a ha => hv ▸ hα a ha
    refine ⟨kb.worldRank α v, ?_, rank?_rankOver hv⟩
    rw [rank?_rankOver hw, hmatch.worldRank_eq hagree]
  · exact (RankedModel.maxFinite?_congr hmatch.usedRanks_eq).symm
  · exact (RankedModel.hasInfinite_congr hmatch.usedRanks_eq).symm

/-- The alphabet of a base that has room for its atoms has just those. -/
theorem exists_minimalModel_none_eq (hα : ∀ a ∈ kb.atoms, a ∈ α.atoms) :
    ∃ δ : Alphabet, δ.atoms = kb.atoms ∧
      kb.minimalModel none = .ok (kb.rankOver δ) := by
  have hsize : kb.atoms.size ≤ maxAlphabetSize :=
    Alphabet.size_le_of_subset hα
  exact ⟨⟨kb.atoms, hsize⟩, rfl, minimalModel_none_of_le hsize⟩

end KnowledgeBase

/-- **Ranks do not depend on irrelevant atoms.**  Over alphabets that have all
atoms of the base, and more, the ranked models project to each other: the
rank of a valuation is that of its projection.  In particular they all
project to the model over the atoms of the base alone. -/
theorem minimalModel_projects_to_covering_alphabets {kb : KnowledgeBase}
    {α β : Alphabet} (hα : ∀ a ∈ kb.atoms, a ∈ α.atoms)
    (hαβ : ∀ a ∈ α.atoms, a ∈ β.atoms) :
    ∃ d m n, kb.minimalModel none = .ok d ∧
      d.value.alphabet.atoms = kb.atoms ∧
      kb.minimalModel (some α) = .ok m ∧ m.value.alphabet = α ∧
      kb.minimalModel (some β) = .ok n ∧ n.value.alphabet = β ∧
      n.value.ProjectsTo m.value ∧
      m.value.ProjectsTo d.value ∧ n.value.ProjectsTo d.value := by
  obtain ⟨δ, hδ, hdefault⟩ := KnowledgeBase.exists_minimalModel_none_eq hα
  have hcover : ∀ a ∈ kb.atoms, a ∈ δ.atoms := fun a ha => hδ ▸ ha
  have hδα : ∀ a ∈ δ.atoms, a ∈ α.atoms := fun a ha => hα a (hδ ▸ ha)
  have hδβ : ∀ a ∈ δ.atoms, a ∈ β.atoms := fun a ha => hαβ a (hδα a ha)
  exact ⟨kb.rankOver δ, kb.rankOver α, kb.rankOver β, hdefault, hδ,
    KnowledgeBase.minimalModel_some kb α, rfl,
    KnowledgeBase.minimalModel_some kb β, rfl,
    KnowledgeBase.rankOver_projectsTo hα hαβ,
    KnowledgeBase.rankOver_projectsTo hcover hδα,
    KnowledgeBase.rankOver_projectsTo hcover hδβ⟩

/-- The bird alphabet, with an atom before the first and one after the
last. -/
def zooAlphabet : Alphabet where
  atoms := .ofList [⟨"a"⟩, ⟨"b"⟩, ⟨"f"⟩, ⟨"p"⟩, ⟨"w"⟩, ⟨"z"⟩]
  size_le := by decide

theorem minimalModel_projects_on_penguins :
    (∀ a ∈ penguins.atoms, a ∈ birdAlphabet.atoms) ∧
      (∀ a ∈ birdAlphabet.atoms, a ∈ zooAlphabet.atoms) ∧
      ∃ d m n, penguins.minimalModel none = .ok d ∧
        penguins.minimalModel (some birdAlphabet) = .ok m ∧
        penguins.minimalModel (some zooAlphabet) = .ok n ∧
        n.value.ProjectsTo m.value ∧ n.value.ProjectsTo d.value := by
  have hα : ∀ a ∈ penguins.atoms, a ∈ birdAlphabet.atoms :=
    SortedSet.subset_iff.mp (by decide)
  have hαβ : ∀ a ∈ birdAlphabet.atoms, a ∈ zooAlphabet.atoms :=
    SortedSet.subset_iff.mp (by decide)
  obtain ⟨d, m, n, hd, _, hm, _, hn, _, hnm, _, hnd⟩ :=
    minimalModel_projects_to_covering_alphabets hα hαβ
  exact ⟨hα, hαβ, d, m, n, hd, hm, hn, hnm, hnd⟩

end SystemZ
