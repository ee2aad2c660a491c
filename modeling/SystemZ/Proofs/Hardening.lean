/-
  SystemZ.Proofs.Hardening
  ────────────────────────
  **HARDENING A CONDITIONAL SHORTENS THE EXPLANATIONS THAT USE IT.**

  A defeasible conditional is hardened when it is moved to the strict ones.
  What explains without it, once it is hardened, is what explained with it
  before: the conditionals that count together are the same.  So the
  explanations after hardening are those before that use it, each one
  conditional shorter.

  That loses the explanations without it.  But if it belongs to one of the
  smallest explanations, then the smallest of those that use it are the
  smallest of all, and they stay the smallest when each gets shorter by one.

  Main results:
    `explains_hardened_iff`     what explains after hardening
    `isSmallest_hardened_iff`   and which explanations are smallest then
    `hardening_shortens_justifications`
-/
import SystemZ.Proofs.SmallestJustifications

namespace SystemZ

/-! ## §1. One conditional less. -/

namespace KnowledgeBase

variable {kb : KnowledgeBase} {s t : Conditional}

/-- The base without a conditional. -/
def without (kb : KnowledgeBase) (s : Conditional) : KnowledgeBase :=
  kb.difference (.ofList [s])

theorem mem_without : t ∈ kb.without s ↔ t ∈ kb ∧ t ≠ s := by
  simp [without]

theorem without_subset : (kb.without s).toSet ⊆ kb.toSet := by
  intro t ht
  exact (mem_without.mp ht).1

theorem mem_of_mem_ofList_singleton (hs : s ∈ kb) :
    ∀ t ∈ SortedSet.ofList [s], t ∈ kb := by
  intro t ht
  rw [SortedSet.mem_ofList, List.mem_singleton] at ht
  rw [ht]
  exact hs

/-- The base is one conditional larger. -/
theorem size_without_add_one (hs : s ∈ kb) :
    (kb.without s).size + 1 = kb.size :=
  SortedSet.size_difference_add (mem_of_mem_ofList_singleton hs)

/-- Taking out what has been put in gives the base back. -/
theorem without_insert (hs : s ∉ kb) :
    KnowledgeBase.without (kb.insert s) s = kb := by
  apply SortedSet.ext
  intro t
  rw [mem_without, SortedSet.mem_insert]
  constructor
  · intro h
    exact h.1.resolve_left h.2
  · intro ht
    refine ⟨.inr ht, ?_⟩
    intro heq
    exact hs (heq ▸ ht)

end KnowledgeBase

/-! ## §2. Explanations. -/

section Explanations

variable {strict defeasible J K : KnowledgeBase} {φ : Formula}
  {s : Conditional}

/-- Whether a conditional counts as strict or as part of the explanation makes
no difference to what counts. -/
theorem toSet_hardened_union (hs : s ∈ J) :
    (strict.union (.ofList [s])).toSet ∪ (J.without s).toSet =
      strict.toSet ∪ J.toSet := by
  ext t
  simp only [Set.mem_union, SortedSet.mem_toSet, SortedSet.mem_union,
    SortedSet.mem_ofList, List.mem_singleton, KnowledgeBase.mem_without]
  by_cases ht : t = s
  · simp [ht, hs]
  · simp [ht]

/-- **What explains after hardening**: an explanation that uses the
conditional, without it. -/
theorem explains_hardened_iff (hs : s ∈ J) (hdef : s ∈ defeasible) :
    Explains (strict.union (.ofList [s])) (defeasible.without s) φ
        (J.without s) ↔ Explains strict defeasible φ J := by
  unfold Explains
  rw [toSet_hardened_union hs]
  apply and_congr_left
  intro _
  constructor
  · intro hsub t ht
    by_cases heq : t = s
    · rw [heq]
      exact hdef
    · have hmem := hsub (KnowledgeBase.mem_without.mpr ⟨ht, heq⟩)
      exact KnowledgeBase.without_subset hmem
  · intro hsub t ht
    obtain ⟨htJ, hne⟩ := KnowledgeBase.mem_without.mp ht
    exact KnowledgeBase.mem_without.mpr ⟨hsub htJ, hne⟩

/-- There is no other way to explain then. -/
theorem exists_explains_of_hardened (hdef : s ∈ defeasible)
    (hK : Explains (strict.union (.ofList [s])) (defeasible.without s) φ K) :
    ∃ J, Explains strict defeasible φ J ∧ s ∈ J ∧ J.without s = K := by
  have hnot : s ∉ K := by
    intro hs
    exact (KnowledgeBase.mem_without.mp (hK.1 hs)).2 rfl
  have hmem : s ∈ K.insert s := SortedSet.mem_insert.mpr (.inl rfl)
  have hback := KnowledgeBase.without_insert hnot
  refine ⟨K.insert s, ?_, hmem, hback⟩
  rw [← explains_hardened_iff hmem hdef, hback]
  exact hK

/-! ## §3. The smallest ones. -/

/-- An explanation that none undercuts in size. -/
def IsSmallest (strict defeasible : KnowledgeBase) (φ : Formula)
    (J : KnowledgeBase) : Prop :=
  Explains strict defeasible φ J ∧
    ∀ K, Explains strict defeasible φ K → J.size ≤ K.size

/-- **Hardening a conditional of a smallest explanation** leaves, as the
smallest explanations, those that used it, without it. -/
theorem isSmallest_hardened_iff (hJ : IsSmallest strict defeasible φ J)
    (hs : s ∈ J) :
    IsSmallest (strict.union (.ofList [s])) (defeasible.without s) φ K ↔
      ∃ L, IsSmallest strict defeasible φ L ∧ s ∈ L ∧ L.without s = K := by
  have hdef : s ∈ defeasible := hJ.1.1 hs
  constructor
  · intro hK
    obtain ⟨L, hL, hsL, rfl⟩ := exists_explains_of_hardened hdef hK.1
    refine ⟨L, ⟨hL, ?_⟩, hsL, rfl⟩
    intro M hM
    -- Without `s` the given smallest explanation competes after hardening.
    have hle := hK.2 _ ((explains_hardened_iff hs hdef).mpr hJ.1)
    have hJM : J.size ≤ M.size := hJ.2 M hM
    have hsizeJ := KnowledgeBase.size_without_add_one hs
    have hsizeL := KnowledgeBase.size_without_add_one hsL
    omega
  · intro h
    obtain ⟨L, hL, hsL, rfl⟩ := h
    refine ⟨(explains_hardened_iff hsL hdef).mpr hL.1, ?_⟩
    intro M hM
    obtain ⟨N, hN, hsN, rfl⟩ := exists_explains_of_hardened hdef hM
    have hLN : L.size ≤ N.size := hL.2 N hN
    have hsizeL := KnowledgeBase.size_without_add_one hsL
    have hsizeN := KnowledgeBase.size_without_add_one hsN
    omega

/-- Hardening brings in no atom, so an alphabet is not outgrown. -/
theorem size_atoms_hardened_le {n : Nat} (hdef : s ∈ defeasible)
    (hsize : ((strict.atoms.union defeasible.atoms).union φ.atoms).size ≤ n) :
    (((KnowledgeBase.atoms (strict.union (.ofList [s]))).union
        (defeasible.without s).atoms).union φ.atoms).size ≤ n := by
  refine Nat.le_trans (SortedSet.size_le_of_subset ?_) hsize
  intro a ha
  simp only [SortedSet.mem_union, KnowledgeBase.mem_atoms_union] at ha ⊢
  rcases ha with ((ha | ha) | ha) | ha
  · exact .inl (.inl ha)
  · exact .inl (.inr (KnowledgeBase.mem_atoms_of_subset
      (KnowledgeBase.mem_of_mem_ofList_singleton hdef) ha))
  · exact .inl (.inr
      (KnowledgeBase.mem_atoms_of_subset KnowledgeBase.without_subset ha))
  · exact .inr ha

end Explanations

/-! ## §4. The search. -/

/-- **Hardening a conditional of a justification shortens exactly the
justifications that use it.**  Let the formula be reserved-free and fit an
alphabet together with all conditionals.  If a conditional belongs to some
listed justification, then the search with that conditional hardened succeeds
as well, and it lists the justifications that contain the conditional, each
without it, and nothing else. -/
theorem hardening_shortens_justifications {strict defeasible : KnowledgeBase}
    {φ : Formula} (hφ : φ.ReservedFree)
    (hsize : ((strict.atoms.union defeasible.atoms).union φ.atoms).size ≤
      maxAlphabetSize) :
    ∃ t, justifications strict defeasible φ = .ok t ∧
      ∀ s, (∃ J ∈ t.value, s ∈ J) →
        ∃ t', justifications (strict.union (.ofList [s]))
            (defeasible.without s) φ = .ok t' ∧
          ∀ K, K ∈ t'.value ↔ ∃ J ∈ t.value, s ∈ J ∧ J.without s = K := by
  obtain ⟨t, ht, hmem, _⟩ := Justification.exists_justifications_eq_ok hφ hsize
  refine ⟨t, ht, ?_⟩
  intro s hs
  obtain ⟨J, hJ, hsJ⟩ := hs
  have hsmallest : IsSmallest strict defeasible φ J := (hmem J).mp hJ
  have hdef : s ∈ defeasible := hsmallest.1.1 hsJ
  obtain ⟨t', ht', hmem', _⟩ :=
    Justification.exists_justifications_eq_ok hφ
      (size_atoms_hardened_le hdef hsize)
  refine ⟨t', ht', ?_⟩
  intro K
  calc K ∈ t'.value
      ↔ IsSmallest (strict.union (.ofList [s])) (defeasible.without s) φ K :=
        hmem' K
    _ ↔ ∃ L, IsSmallest strict defeasible φ L ∧ s ∈ L ∧ L.without s = K :=
        isSmallest_hardened_iff hsmallest hsJ
    _ ↔ ∃ L ∈ t.value, s ∈ L ∧ L.without s = K :=
        exists_congr fun L => and_congr_left' (hmem L).symm

/-- Birds fly. -/
def birdsFly : Conditional :=
  .normally (.literal (.positive ⟨"b"⟩)) (.literal (.positive ⟨"f"⟩))

/-- Penguins are refuted by flying birds and one more conditional; where birds
fly without exception, by that one alone. -/
theorem hardening_birdsFly_shortens :
    (Formula.leaf (.positive ⟨"p"⟩)).ReservedFree ∧
      ((penguins.separate.1.atoms.union penguins.separate.2.atoms).union
        (Formula.leaf (.positive ⟨"p"⟩)).atoms).size ≤ maxAlphabetSize ∧
      ∃ t t', justifications penguins.separate.1 penguins.separate.2
          (.leaf (.positive ⟨"p"⟩)) = .ok t ∧
        (∃ J ∈ t.value, birdsFly ∈ J) ∧
        justifications (penguins.separate.1.union (.ofList [birdsFly]))
          (KnowledgeBase.without penguins.separate.2 birdsFly)
          (.leaf (.positive ⟨"p"⟩)) = .ok t' ∧
        ∀ K, K ∈ t'.value ↔
          ∃ J ∈ t.value, birdsFly ∈ J ∧ J.without birdsFly = K := by
  have hφ : (Formula.leaf (.positive ⟨"p"⟩)).ReservedFree := by decide
  have hsize :
      ((penguins.separate.1.atoms.union penguins.separate.2.atoms).union
        (Formula.leaf (.positive ⟨"p"⟩)).atoms).size ≤ maxAlphabetSize := by
    decide
  obtain ⟨t, ht, hhardened⟩ := hardening_shortens_justifications hφ hsize
  have hused : ∃ J ∈ t.value, birdsFly ∈ J := by
    have hrun : (justifications penguins.separate.1 penguins.separate.2
        (.leaf (.positive ⟨"p"⟩))).toOption.any (fun t =>
          t.value.toList.any fun J => J.contains birdsFly) = true := by
      decide +kernel
    simpa [ht, Except.toOption] using hrun
  obtain ⟨t', ht', hmem⟩ := hhardened birdsFly hused
  exact ⟨hφ, hsize, t, t', ht, hused, ht', hmem⟩

end SystemZ
