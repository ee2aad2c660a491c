/-
  SystemZ.Proofs.RefutedFormulas
  ──────────────────────────────
  **WHAT A KNOWLEDGE BASE REFUTES, BY FOUR PROCEDURES.**

  A base refutes a formula when its strict readings leave the formula no
  assignment.  Each reasoning procedure answers that question in passing:

      justifications   list something
      ranked model     no valuation of rank 0 makes the formula true
      entailment       the strict readings entail the negation
      stratification   a conditional with this antecedent is not of rank 0

  For the justifications the base is taken apart into its classical and its
  defeasible conditionals.  That loses nothing, and since more conditionals
  refute more, some defeasible ones explain a negation exactly if all do.

  Main results:
    `KnowledgeBase.separate_union`          taking apart loses nothing
    `exists_explains_iff`                   some explain if all do
    `procedures_agree_on_refuted_formulas`
-/
import SystemZ.Proofs.Agreement
import SystemZ.Proofs.SmallestJustifications

namespace SystemZ

/-! ## §1. Justifications. -/

/-- **Classical and defeasible conditionals make up the whole base.** -/
theorem KnowledgeBase.separate_union (kb : KnowledgeBase) :
    kb.separate.1.toSet ∪ kb.separate.2.toSet = kb.toSet := by
  ext s
  show s ∈ kb.filter Conditional.isClassical ∨
    s ∈ (kb.filter fun s => !s.isClassical) ↔ s ∈ kb
  rw [SortedSet.mem_filter, SortedSet.mem_filter, ← and_or_left]
  cases s.isClassical <;> simp

theorem KnowledgeBase.mem_separate_iff {kb : KnowledgeBase} {s : Conditional} :
    s ∈ kb.separate.1 ∨ s ∈ kb.separate.2 ↔ s ∈ kb := by
  show s ∈ kb.separate.1.toSet ∪ kb.separate.2.toSet ↔ s ∈ kb
  rw [separate_union, SortedSet.mem_toSet]

/-- The two parts have the atoms of the base between them. -/
theorem KnowledgeBase.atoms_separate (kb : KnowledgeBase) :
    kb.separate.1.atoms.union kb.separate.2.atoms = kb.atoms := by
  apply SortedSet.ext
  intro a
  simp only [SortedSet.mem_union, mem_atoms, ← exists_or, ← or_and_right,
    mem_separate_iff]

/-- **There is an explanation exactly if all defeasible conditionals together
are one.** -/
theorem exists_explains_iff {strict defeasible : KnowledgeBase}
    {φ : Formula} :
    (∃ J, Explains strict defeasible φ J) ↔
      Refutes (strict.toSet ∪ defeasible.toSet) φ := by
  constructor
  · intro h
    obtain ⟨J, hsub, href⟩ := h
    exact href.mono (Set.union_subset_union_right _ hsub)
  · intro h
    exact ⟨defeasible, fun _ hs => hs, h⟩

namespace KnowledgeBase

variable {kb : KnowledgeBase} {α : Alphabet} {φ : Formula}

/-- Over an alphabet for the base and a formula, the search for justifications
succeeds, and it lists nothing exactly if the base does not refute the
formula. -/
theorem exists_justifications_separate_eq_ok (hφ : φ.ReservedFree)
    (hα : ∀ a ∈ kb.atoms, a ∈ α.atoms) (hαφ : ∀ a ∈ φ.atoms, a ∈ α.atoms) :
    ∃ j, justifications kb.separate.1 kb.separate.2 φ = .ok j ∧
      (j.value = ∅ ↔ ¬ Refutes kb.toSet φ) := by
  have hcover : ∀ a ∈ (kb.separate.1.atoms.union kb.separate.2.atoms).union
      φ.atoms, a ∈ α.atoms := by
    intro a ha
    rw [atoms_separate, SortedSet.mem_union] at ha
    exact ha.elim (hα a) (hαφ a)
  obtain ⟨j, hj, hmem, hsome⟩ := Justification.exists_justifications_eq_ok hφ
    (Alphabet.size_le_of_subset hcover)
  refine ⟨j, hj, ?_⟩
  rw [← separate_union, ← exists_explains_iff]
  constructor
  · intro hempty hex
    obtain ⟨J, hJ⟩ := hsome hex
    rw [hempty] at hJ
    exact SortedSet.not_mem_empty J hJ
  · intro hnone
    apply SortedSet.eq_empty_of_forall_not_mem
    intro J hJ
    exact hnone ⟨J, ((hmem J).mp hJ).1⟩

/-! ## §2. The other procedures. -/

/-- Over such an alphabet entailment of the negation, from the strict readings,
says whether the base refutes the formula. -/
theorem exists_entails_materialized_eq_ok (hφ : φ.ReservedFree)
    (hα : ∀ a ∈ kb.atoms, a ∈ α.atoms) (hαφ : ∀ a ∈ φ.atoms, a ∈ α.atoms) :
    ∃ b, entails kb.materialized.toList φ.negate = .ok b ∧
      (b = true ↔ Refutes kb.toSet φ) :=
  exists_entails_negate_eq_ok (fun _ => mem_materialized) hφ α.size_le hαφ
    fun _ hs a ha => hα a (mem_atoms_of_mem hs ha)

end KnowledgeBase

namespace Stratification

variable {z : Stratification} {kb : KnowledgeBase} {α : Alphabet}
  {φ : Formula} {s : Conditional}

/-- **A formula is true at some valuation of rank 0 exactly if the base does
not refute it.** -/
theorem Sorts.exists_rank_zero_iff (hz : z.Sorts exceptionalIn kb.toSet)
    (hα : ∀ a ∈ kb.atoms, a ∈ α.atoms) (hαφ : ∀ a ∈ φ.atoms, a ∈ α.atoms) :
    (∃ v : Valuation, v.alphabet = α ∧
        (kb.rankOver α).value.rank? v = some (.finite 0) ∧
        v.satisfies φ = true) ↔ ¬ Refutes kb.toSet φ := by
  have hcover : ∀ s ∈ kb.toSet, ∀ a ∈ s.atoms, a ∈ α.atoms :=
    fun _ hs a ha => hα a (KnowledgeBase.mem_atoms_of_mem hs ha)
  rw [refutes_iff_of_alphabet hαφ hcover, not_not]
  apply exists_congr
  intro v
  rw [and_congr_right_iff]
  intro hv
  rw [KnowledgeBase.rank?_rankOver hv, Option.some.injEq,
    hz.worldRank_eq_zero_iff hα, and_comm]
  rfl

/-- A conditional of the base has rank 0 exactly if the base does not refute
its antecedent. -/
theorem Sorts.rankOf?_eq_zero_iff (hz : z.Sorts exceptionalIn kb.toSet)
    (hs : s ∈ kb) :
    z.rankOf? s = some (.finite 0) ↔ ¬ Refutes kb.toSet s.antecedent := by
  rw [hz.rankOf?_eq_finite_iff exceptionalIn_subset]
  show s ∈ kb.toSet ∧ ¬ (s ∈ kb.toSet ∧ Refutes kb.toSet s.antecedent) ↔ _
  have hmem : s ∈ kb.toSet := hs
  simp only [hmem, true_and]

end Stratification

/-! ## §3. Agreement. -/

/-- **The procedures agree on what a base refutes.**  Let an alphabet cover a
reserved-free base and a reserved-free formula.  No justification is listed
exactly if some valuation of rank 0 makes the formula true, and exactly if the
strict readings do not entail its negation.  In particular a conditional of
the base has rank 0 exactly if no justification against its antecedent is
listed. -/
theorem procedures_agree_on_refuted_formulas {kb : KnowledgeBase}
    {α : Alphabet} {φ : Formula} (hres : kb.ReservedFree)
    (hφ : φ.ReservedFree) (hα : ∀ a ∈ kb.atoms, a ∈ α.atoms)
    (hαφ : ∀ a ∈ φ.atoms, a ∈ α.atoms) :
    ∃ t m j b, kb.stratify = .ok t ∧ kb.minimalModel (some α) = .ok m ∧
      justifications kb.separate.1 kb.separate.2 φ = .ok j ∧
      entails kb.materialized.toList φ.negate = .ok b ∧
      (j.value = ∅ ↔ ∃ v : Valuation, v.alphabet = α ∧
        m.value.rank? v = some (.finite 0) ∧ v.satisfies φ = true) ∧
      (j.value = ∅ ↔ b = false) ∧
      ∀ s ∈ kb, ∃ js,
        justifications kb.separate.1 kb.separate.2 s.antecedent = .ok js ∧
        (t.value.rankOf? s = some (.finite 0) ↔ js.value = ∅) := by
  obtain ⟨t, ht, hz⟩ :=
    KnowledgeBase.exists_stratify_eq_ok hres (Alphabet.size_le_of_subset hα)
  obtain ⟨j, hj, hjempty⟩ :=
    KnowledgeBase.exists_justifications_separate_eq_ok hφ hα hαφ
  obtain ⟨b, hb, hbtrue⟩ :=
    KnowledgeBase.exists_entails_materialized_eq_ok hφ hα hαφ
  refine ⟨t, kb.rankOver α, j, b, ht, kb.minimalModel_some α, hj, hb, ?_, ?_,
    ?_⟩
  · rw [hjempty, hz.exists_rank_zero_iff hα hαφ]
  · rw [hjempty, ← hbtrue, Bool.not_eq_true]
  · intro s hs
    have hatoms : ∀ a ∈ s.antecedent.atoms, a ∈ α.atoms := fun a ha =>
      hα a (KnowledgeBase.mem_atoms_of_mem hs
        (Conditional.mem_atoms_of_antecedent ha))
    obtain ⟨js, hjs, hjsempty⟩ :=
      KnowledgeBase.exists_justifications_separate_eq_ok (hres s hs).1 hα
        hatoms
    refine ⟨js, hjs, ?_⟩
    rw [hz.rankOf?_eq_zero_iff hs, hjsempty]

theorem procedures_agree_on_refuted_penguins :
    penguins.ReservedFree ∧ (Formula.leaf (.positive ⟨"p"⟩)).ReservedFree ∧
      (∀ a ∈ penguins.atoms, a ∈ birdAlphabet.atoms) ∧
      (∀ a ∈ (Formula.leaf (.positive ⟨"p"⟩)).atoms,
        a ∈ birdAlphabet.atoms) ∧
      ∃ m j b, penguins.minimalModel (some birdAlphabet) = .ok m ∧
        justifications penguins.separate.1 penguins.separate.2
          (.leaf (.positive ⟨"p"⟩)) = .ok j ∧
        entails penguins.materialized.toList
          (Formula.leaf (.positive ⟨"p"⟩)).negate = .ok b ∧
        (j.value = ∅ ↔ ∃ v : Valuation, v.alphabet = birdAlphabet ∧
          m.value.rank? v = some (.finite 0) ∧
          v.satisfies (.leaf (.positive ⟨"p"⟩)) = true) ∧
        (j.value = ∅ ↔ b = false) := by
  have hres : penguins.ReservedFree := by decide
  have hφ : (Formula.leaf (.positive ⟨"p"⟩)).ReservedFree := by decide
  have hα : ∀ a ∈ penguins.atoms, a ∈ birdAlphabet.atoms :=
    SortedSet.subset_iff.mp (by decide)
  have hαφ : ∀ a ∈ (Formula.leaf (.positive ⟨"p"⟩)).atoms,
      a ∈ birdAlphabet.atoms := SortedSet.subset_iff.mp (by decide)
  obtain ⟨_, m, j, b, _, hm, hj, hb, hworld, hentails, _⟩ :=
    procedures_agree_on_refuted_formulas hres hφ hα hαφ
  exact ⟨hres, hφ, hα, hαφ, m, j, b, hm, hj, hb, hworld, hentails⟩

end SystemZ
