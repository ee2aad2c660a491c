/-
  SystemZ.Proofs.RenamedBases
  ───────────────────────────
  **THE NAMES OF THE ATOMS HAVE NO INFLUENCE.**

  Names order the atoms of an alphabet, so the digits of a valuation; they
  order the conditionals of a base, so the rules of a level and the candidates
  of a search.  Under a renaming no step of a run need look like the step of
  the other run.  So the runs are not compared at all, but what they have been
  shown to compute.

  Ranks: a renamed conditional reads, at a renamed valuation, like the
  conditional at the valuation, and every valuation of either alphabet has one
  of the other beside it.  So the models match, and the ranks of conditionals
  are read off the models.

  Justifications: every assignment is some assignment read through the
  renaming, so a renamed base refutes just the renamed formulas that the base
  refutes.  Explanations are renamed with their size, and no others appear.

  Main results:
    `matches_rename`        a base and the renamed one have matching models
    `refutes_rename_iff`    a renamed base refutes the renamed formulas
    `explains_rename_iff`, `exists_of_explains_rename`   explanations, renamed
    `procedures_commute_with_renaming`
-/
import SystemZ.Proofs.Matching
import SystemZ.Proofs.RefutedFormulas
import SystemZ.Proofs.Renaming

namespace SystemZ

variable (σ : Renaming) {kb strict defeasible J K : KnowledgeBase}
  {φ : Formula} {α : Alphabet}

/-! ## §1. Ranks. -/

theorem Conditional.readAlike_rename {s : Conditional} (h : s.ReservedFree) :
    s.ReadAlike (Valuation.IsRenamed σ) (s.rename σ) := by
  intro v w hvw
  refine ⟨?_, (hvw.satisfies_rename s.antecedent).symm⟩
  unfold Valuation.satisfies
  rw [holds_materialize_rename σ h, hvw.value_comp]

namespace KnowledgeBase

/-- **The models of a base and of the renamed one match**, each over its own
alphabet. -/
theorem matches_rename (hres : kb.ReservedFree) (α : Alphabet) :
    Matches (Valuation.IsRenamed σ) kb α (kb.rename σ) (α.rename σ) where
  forth := {
    exists_related := fun _ hv => Valuation.exists_isRenamed_right σ hv
    exists_readAlike := by
      intro t ht
      obtain ⟨s, hs, rfl⟩ := mem_rename.mp ht
      exact ⟨s, hs, Conditional.readAlike_rename σ (hres s hs)⟩ }
  back := {
    exists_related := fun _ hw => Valuation.exists_isRenamed_left hw
    exists_readAlike := by
      intro s hs
      exact ⟨s.rename σ, rename_mem_rename hs,
        (Conditional.readAlike_rename σ (hres s hs)).flip⟩ }

/-- A renamed valuation has the rank of the valuation. -/
theorem exists_rank?_rename_eq (hres : kb.ReservedFree) {v w : Valuation}
    (hv : v.alphabet = α) (hvw : v.IsRenamed σ w) :
    ∃ r, (kb.rankOver α).value.rank? v = some r ∧
      (rankOver (kb.rename σ) (α.rename σ)).value.rank? w = some r := by
  have hw : w.alphabet = α.rename σ := by rw [hvw.1, hv]
  have hrank := (matches_rename σ hres α).worldRank_eq hvw
  exact ⟨kb.worldRank α v, rank?_rankOver hv, by rw [rank?_rankOver hw, hrank]⟩

/-- A renamed conditional has the rank of the conditional. -/
theorem exists_rankOf?_rename_eq (hres : kb.ReservedFree)
    (hsize : kb.atoms.size ≤ maxAlphabetSize) :
    ∃ t t', kb.stratify = .ok t ∧ stratify (kb.rename σ) = .ok t' ∧
      ∀ s ∈ kb, ∃ r, t.value.rankOf? s = some r ∧
        t'.value.rankOf? (s.rename σ) = some r := by
  -- The ranks are those at the antecedents in the two matching models.
  let β : Alphabet := ⟨kb.atoms, hsize⟩
  have hβ : ∀ a ∈ kb.atoms, a ∈ β.atoms := fun _ ha => ha
  have hβ' : ∀ b ∈ (kb.rename σ).atoms, b ∈ (β.rename σ).atoms := by
    rw [atoms_rename]
    exact fun _ hb => hb
  obtain ⟨t, ht, hz⟩ := exists_stratify_eq_ok hres hsize
  obtain ⟨t', ht', hz'⟩ := exists_stratify_eq_ok (hres.rename σ)
    (Alphabet.size_le_of_subset hβ')
  refine ⟨t, t', ht, ht', ?_⟩
  intro s hs
  have hranks := (matches_rename σ hres β).ranksAt_eq
    fun v w hvw => (hvw.satisfies_rename s.antecedent).symm
  exact hz.exists_rankOf?_eq_of_ranksAt_eq hz' hβ hβ' hs
    (rename_mem_rename hs) hranks

end KnowledgeBase

/-! ## §2. Justifications. -/

/-- **A renamed base refutes a renamed formula exactly if the base refutes
the formula.** -/
theorem refutes_rename_iff {base : Set Conditional}
    (hres : ∀ s ∈ base, s.ReservedFree) (φ : Formula) :
    Refutes (Conditional.rename σ '' base) (φ.rename σ) ↔ Refutes base φ := by
  -- Different atoms have different names, so any values can be given to them.
  have hsurj : Function.Surjective fun value : Atom → Bool => value ∘ σ :=
    σ.injective.surjective_comp_right
  rw [Refutes, Refutes, not_iff_not, Iff.comm, hsurj.exists]
  apply exists_congr
  intro value
  rw [Formula.holds_rename, Set.forall_mem_image]
  apply and_congr_right
  intro _
  apply forall₂_congr
  intro s hs
  rw [Conditional.holds_materialize_rename σ (hres s hs)]

/-- **Renamed, a set of conditionals explains among the renamed ones exactly if
it did before.** -/
theorem explains_rename_iff (hstrict : strict.ReservedFree)
    (hdefeasible : defeasible.ReservedFree) :
    Explains (strict.rename σ) (defeasible.rename σ) (φ.rename σ)
        (J.rename σ) ↔
      Explains strict defeasible φ J := by
  have hinj := Conditional.rename_injective σ.injective
  simp only [Explains, KnowledgeBase.toSet_rename]
  rw [Set.image_subset_image_iff hinj, ← Set.image_union]
  apply and_congr_right
  intro hsub
  apply refutes_rename_iff
  intro s hs
  rcases hs with hs | hs
  · exact hstrict s hs
  · exact hdefeasible s (hsub hs)

/-- **Whatever explains after renaming is a renamed explanation.** -/
theorem exists_of_explains_rename (hstrict : strict.ReservedFree)
    (hdefeasible : defeasible.ReservedFree)
    (h : Explains (strict.rename σ) (defeasible.rename σ) (φ.rename σ) K) :
    ∃ J : KnowledgeBase, Explains strict defeasible φ J ∧ J.rename σ = K := by
  obtain ⟨J, _, rfl⟩ := SortedSet.exists_map_eq_of_subset h.1
  exact ⟨J, (explains_rename_iff σ hstrict hdefeasible).mp h, rfl⟩

/-- The search among renamed conditionals finds the renamed justifications. -/
theorem exists_justifications_rename_eq_ok (hstrict : strict.ReservedFree)
    (hdefeasible : defeasible.ReservedFree) (hφ : φ.ReservedFree)
    (hsize : ((strict.atoms.union defeasible.atoms).union φ.atoms).size ≤
      maxAlphabetSize) :
    ∃ j j', justifications strict defeasible φ = .ok j ∧
      justifications (strict.rename σ) (defeasible.rename σ) (φ.rename σ) =
        .ok j' ∧
      j'.value = j.value.map (KnowledgeBase.rename σ) := by
  have hsize' : (((strict.rename σ).atoms.union
      (defeasible.rename σ).atoms).union (φ.rename σ).atoms).size ≤
        maxAlphabetSize := by
    rw [KnowledgeBase.atoms_rename, KnowledgeBase.atoms_rename,
      Formula.atoms_rename, ← SortedSet.map_union, ← SortedSet.map_union]
    exact Nat.le_trans (SortedSet.size_map_le σ _) hsize
  obtain ⟨j, hj, hmem, _⟩ :=
    Justification.exists_justifications_eq_ok hφ hsize
  obtain ⟨j', hj', hmem', _⟩ :=
    Justification.exists_justifications_eq_ok (hφ.rename σ) hsize'
  refine ⟨j, j', hj, hj', ?_⟩
  apply SortedSet.ext
  intro K
  rw [hmem', SortedSet.mem_map]
  constructor
  · intro h
    obtain ⟨hK, hleast⟩ := h
    obtain ⟨J, hJ, rfl⟩ :=
      exists_of_explains_rename σ hstrict hdefeasible hK
    refine ⟨J, (hmem J).mpr ⟨hJ, ?_⟩, rfl⟩
    intro L hL
    have hle := hleast (L.rename σ)
      ((explains_rename_iff σ hstrict hdefeasible).mpr hL)
    rwa [KnowledgeBase.size_rename σ.injective,
      KnowledgeBase.size_rename σ.injective] at hle
  · intro h
    obtain ⟨J, hJ, rfl⟩ := h
    obtain ⟨hexpl, hleast⟩ := (hmem J).mp hJ
    refine ⟨(explains_rename_iff σ hstrict hdefeasible).mpr hexpl, ?_⟩
    intro M hM
    obtain ⟨L, hL, rfl⟩ :=
      exists_of_explains_rename σ hstrict hdefeasible hM
    rw [KnowledgeBase.size_rename σ.injective,
      KnowledgeBase.size_rename σ.injective]
    exact hleast L hL

/-! ## §3. All procedures. -/

/-- **The names of the atoms have no influence.**  Let the atoms of a
reserved-free base and of a reserved-free formula fit an alphabet together.
Under a renaming, every conditional of the base keeps its rank.  So does every
valuation, over any alphabet, and each has a renamed one.  The justifications
found among the renamed conditionals are the renamed justifications. -/
theorem procedures_commute_with_renaming (σ : Renaming) {kb : KnowledgeBase}
    {φ : Formula} (hres : kb.ReservedFree) (hφ : φ.ReservedFree)
    (hsize : (kb.atoms.union φ.atoms).size ≤ maxAlphabetSize) :
    (∃ t t', kb.stratify = .ok t ∧
      KnowledgeBase.stratify (kb.rename σ) = .ok t' ∧
      ∀ s ∈ kb, ∃ r, t.value.rankOf? s = some r ∧
        t'.value.rankOf? (s.rename σ) = some r) ∧
    (∀ α : Alphabet, ∃ m m', kb.minimalModel (some α) = .ok m ∧
      KnowledgeBase.minimalModel (kb.rename σ) (some (α.rename σ)) = .ok m' ∧
      ∀ v : Valuation, v.alphabet = α → (∃ w, v.IsRenamed σ w) ∧
        ∀ w, v.IsRenamed σ w →
          ∃ r, m.value.rank? v = some r ∧ m'.value.rank? w = some r) ∧
    ∃ j j', justifications kb.separate.1 kb.separate.2 φ = .ok j ∧
      justifications (kb.separate.1.rename σ) (kb.separate.2.rename σ)
        (φ.rename σ) = .ok j' ∧
      j'.value = j.value.map (KnowledgeBase.rename σ) := by
  refine ⟨?_, ?_, ?_⟩
  · have hpart : kb.atoms.size ≤ (kb.atoms.union φ.atoms).size :=
      SortedSet.size_le_of_subset fun _ ha => SortedSet.mem_union.mpr (.inl ha)
    exact KnowledgeBase.exists_rankOf?_rename_eq σ hres
      (Nat.le_trans hpart hsize)
  · intro α
    refine ⟨kb.rankOver α, KnowledgeBase.rankOver (kb.rename σ) (α.rename σ),
      kb.minimalModel_some α, KnowledgeBase.minimalModel_some _ _, ?_⟩
    intro v hv
    obtain ⟨w, _, hvw⟩ := Valuation.exists_isRenamed_right σ hv
    refine ⟨⟨w, hvw⟩, ?_⟩
    intro w' hvw'
    exact KnowledgeBase.exists_rank?_rename_eq σ hres hv hvw'
  · have hmem : ∀ s, s ∈ kb.separate.1 ∨ s ∈ kb.separate.2 →
        s.ReservedFree := fun s hs =>
      hres s (KnowledgeBase.mem_separate_iff.mp hs)
    apply exists_justifications_rename_eq_ok σ
      (fun s hs => hmem s (.inl hs)) (fun s hs => hmem s (.inr hs)) hφ
    rw [KnowledgeBase.atoms_separate]
    exact hsize

/-- Two ordinary atoms exchange their names. -/
def Renaming.swap (a b : Atom) (ha : a.isReserved = false)
    (hb : b.isReserved = false) : Renaming where
  toFun := Equiv.swap a b
  injective := (Equiv.swap a b).injective
  isReserved_toFun c hc := by
    rw [Equiv.swap_apply_def]
    split_ifs
    · exact hb
    · exact ha
    · exact hc

/-- The first atom of the penguins becomes the last. -/
def lateBirds : Renaming := .swap ⟨"b"⟩ ⟨"z"⟩ (by decide) (by decide)

theorem procedures_commute_with_late_birds :
    penguins.ReservedFree ∧ (Formula.leaf (.positive ⟨"p"⟩)).ReservedFree ∧
      (penguins.atoms.union (Formula.leaf (.positive ⟨"p"⟩)).atoms).size ≤
        maxAlphabetSize ∧
      birdAlphabet.index? ⟨"b"⟩ = some 0 ∧
      (birdAlphabet.rename lateBirds).index? (lateBirds ⟨"b"⟩) = some 3 ∧
      (∃ t t', penguins.stratify = .ok t ∧
        KnowledgeBase.stratify (penguins.rename lateBirds) = .ok t' ∧
        ∀ s ∈ penguins, ∃ r, t.value.rankOf? s = some r ∧
          t'.value.rankOf? (s.rename lateBirds) = some r) ∧
      (∃ m m', penguins.minimalModel (some birdAlphabet) = .ok m ∧
        KnowledgeBase.minimalModel (penguins.rename lateBirds)
          (some (birdAlphabet.rename lateBirds)) = .ok m' ∧
        ∀ v : Valuation, v.alphabet = birdAlphabet →
          (∃ w, v.IsRenamed lateBirds w) ∧ ∀ w, v.IsRenamed lateBirds w →
            ∃ r, m.value.rank? v = some r ∧ m'.value.rank? w = some r) ∧
      ∃ j j', justifications penguins.separate.1 penguins.separate.2
          (.leaf (.positive ⟨"p"⟩)) = .ok j ∧
        justifications (penguins.separate.1.rename lateBirds)
          (penguins.separate.2.rename lateBirds)
          ((Formula.leaf (.positive ⟨"p"⟩)).rename lateBirds) = .ok j' ∧
        j'.value = j.value.map (KnowledgeBase.rename lateBirds) := by
  have hres : penguins.ReservedFree := by decide
  have hφ : (Formula.leaf (.positive ⟨"p"⟩)).ReservedFree := by decide
  have hsize : (penguins.atoms.union
      (Formula.leaf (.positive ⟨"p"⟩)).atoms).size ≤ maxAlphabetSize := by
    decide
  obtain ⟨hranks, hmodels, hjustifications⟩ :=
    procedures_commute_with_renaming lateBirds hres hφ hsize
  exact ⟨hres, hφ, hsize, by decide, by decide, hranks,
    hmodels birdAlphabet, hjustifications⟩

end SystemZ
