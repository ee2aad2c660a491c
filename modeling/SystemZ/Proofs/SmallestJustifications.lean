/-
  SystemZ.Proofs.SmallestJustifications
  ─────────────────────────────────────
  **THE SEARCH LISTS EXACTLY THE SMALLEST EXPLANATIONS.**

  An explanation is a set of defeasible conditionals that, with the strict
  ones, refutes the formula.  The search tries sublists by length and stops at
  the first length with a hit.  Sublists of an increasing list are its
  subsets, each once, so nothing is missed and nothing larger is kept.

  Main results:
    `mem_choose`              the candidates of a size
    `firstHits_eq_ok_some`, `firstHits_eq_ok_none`   what a search has seen
    `explains_iff`            explanations are the candidates that pass
    `justifications_are_the_smallest_explanations`
-/
import SystemZ.Justification
import SystemZ.Proofs.Exceptionality

namespace SystemZ

namespace Justification

/-! ## §1. Candidates and the search. -/

/-- The candidates of size `k` are the sublists of length `k`. -/
theorem mem_choose {α : Type _} {k : Nat} {l m : List α} :
    m ∈ choose k l ↔ m.Sublist l ∧ m.length = k := by
  induction k, l using choose.induct generalizing m with
  | case1 l =>
      rw [choose, List.mem_singleton, List.length_eq_zero_iff]
      constructor
      · intro h
        exact ⟨h ▸ List.nil_sublist l, h⟩
      · intro h
        exact h.2
  | case2 k =>
      rw [choose, List.sublist_nil]
      constructor
      · intro h
        cases h
      · intro h
        obtain ⟨rfl, hlen⟩ := h
        cases hlen
  | case3 k a as ihTake ihSkip =>
      -- A sublist takes the head of the list or skips it, and so do candidates.
      rw [choose, List.mem_append, List.mem_map, ihSkip,
        List.sublist_cons_iff]
      constructor
      · intro h
        rcases h with ⟨rest, hrest, rfl⟩ | ⟨hsub, hlen⟩
        · obtain ⟨hsub, hlen⟩ := ihTake.mp hrest
          exact ⟨.inr ⟨rest, rfl, hsub⟩, congrArg (· + 1) hlen⟩
        · exact ⟨.inl hsub, hlen⟩
      · intro h
        obtain ⟨hsub | ⟨rest, rfl, hsub⟩, hlen⟩ := h
        · exact .inr ⟨hsub, hlen⟩
        · exact .inl ⟨rest, ihTake.mpr ⟨hsub, Nat.succ.inj hlen⟩, rfl⟩

/-- From a set of conditionals they are its subsets of size `k`. -/
theorem mem_choose_toList_iff {k : Nat} {m : List Conditional}
    {defeasible : KnowledgeBase} : m ∈ choose k defeasible.toList ↔
      ∃ J : KnowledgeBase, J.toSet ⊆ defeasible.toSet ∧ J.size = k ∧
        J.toList = m := by
  rw [mem_choose]
  constructor
  · rintro ⟨hsub, hlen⟩
    have hlist : (SortedSet.ofList m).toList = m :=
      SortedSet.toList_ofList_of_sublist hsub
    refine ⟨SortedSet.ofList m, ?_, ?_, hlist⟩
    · intro s hs
      exact hsub.subset (SortedSet.mem_ofList.mp hs)
    · rw [SortedSet.size, hlist, hlen]
  · rintro ⟨J, hsub, rfl, rfl⟩
    exact ⟨SortedSet.toList_sublist_of_subset hsub, rfl⟩

variable {test : List Conditional → Except AlphabetError Bool}
  {items : List Conditional} {sizes : List Nat}

theorem exists_firstHits_eq_ok
    (htest : ∀ m : List Conditional, m.Sublist items → ∃ b, test m = .ok b) :
    ∃ r, firstHits test items sizes = .ok r := by
  induction sizes with
  | nil => exact ⟨none, rfl⟩
  | cons k sizes ih =>
      obtain ⟨kept, hkept⟩ := SortedSet.exists_tryFilterList_eq_ok
        fun m hm => htest m (mem_choose.mp hm).1
      rw [firstHits, hkept]
      cases kept with
      | nil => exact ih
      | cons hit hits => exact ⟨_, rfl⟩

/-- A search that ends without a hit has seen no candidate pass. -/
theorem firstHits_eq_ok_none (h : firstHits test items sizes = .ok none) :
    ∀ k ∈ sizes, ∀ m ∈ choose k items, test m ≠ .ok true := by
  induction sizes with
  | nil =>
      intro k hk
      cases hk
  | cons j sizes ih =>
      rw [firstHits] at h
      split at h
      case h_1 => cases h
      case h_2 hkept =>
        intro k hk m hm hpass
        rcases List.mem_cons.mp hk with rfl | hk
        · have hmem := (SortedSet.mem_tryFilterList hkept).mpr ⟨hm, hpass⟩
          cases hmem
        · exact ih h k hk m hm hpass
      case h_3 => cases h

/-- A search through growing sizes that ends with hits has all hits of their
size, and has seen none of a smaller size. -/
theorem firstHits_eq_ok_some {k : Nat} {hits : List (List Conditional)}
    (hsizes : sizes.Pairwise (· < ·))
    (h : firstHits test items sizes = .ok (some (k, hits))) :
    hits ≠ [] ∧ (∀ m, m ∈ hits ↔ m ∈ choose k items ∧ test m = .ok true) ∧
      ∀ j ∈ sizes, j < k → ∀ m ∈ choose j items, test m ≠ .ok true := by
  induction sizes with
  | nil => cases h
  | cons i sizes ih =>
      obtain ⟨hfirst, hrest⟩ := List.pairwise_cons.mp hsizes
      rw [firstHits] at h
      split at h
      case h_1 => cases h
      case h_2 hkept =>
        obtain ⟨hne, hmem, hsmaller⟩ := ih hrest h
        refine ⟨hne, hmem, ?_⟩
        intro j hj hjk m hm hpass
        rcases List.mem_cons.mp hj with rfl | hj
        · have hseen := (SortedSet.mem_tryFilterList hkept).mpr ⟨hm, hpass⟩
          cases hseen
        · exact hsmaller j hj hjk m hm hpass
      case h_3 hkept =>
        cases h
        refine ⟨List.cons_ne_nil _ _, ?_, ?_⟩
        · intro m
          exact SortedSet.mem_tryFilterList hkept
        · intro j hj hji
          -- No size of the list is smaller than its first.
          exfalso
          rcases List.mem_cons.mp hj with rfl | hj
          · omega
          · have := hfirst j hj
            omega

end Justification

/-! ## §2. Explanations. -/

/-- A set of the defeasible conditionals that refutes `φ` with the strict
ones. -/
def Explains (strict defeasible : KnowledgeBase) (φ : Formula)
    (J : KnowledgeBase) : Prop :=
  J.toSet ⊆ defeasible.toSet ∧ Refutes (strict.toSet ∪ J.toSet) φ

namespace Justification

variable {strict defeasible J : KnowledgeBase} {φ : Formula}

/-- The test of a candidate, as a statement on all assignments. -/
theorem exists_refutes_eq_ok (hφ : φ.ReservedFree)
    (hsize : ((strict.atoms.union defeasible.atoms).union φ.atoms).size ≤
      maxAlphabetSize)
    {m : List Conditional} (hm : m.Sublist defeasible.toList) :
    ∃ b, refutes strict.materialized.toList φ.negate m = .ok b ∧
      (b = true ↔ Refutes (strict.toSet ∪ (SortedSet.ofList m).toSet) φ) := by
  have hmem : ∀ c, c ∈ strict.toSet ∪ (SortedSet.ofList m).toSet ↔
      c ∈ strict ∨ c ∈ m := by
    intro c
    simp
  refine exists_entails_negate_eq_ok ?_ hφ hsize ?_ ?_
  · intro f
    simp only [hmem, List.mem_append, List.mem_map, SortedSet.mem_toList,
      KnowledgeBase.mem_materialized, or_and_right, exists_or]
  · intro a ha
    exact SortedSet.mem_union.mpr (.inr ha)
  · intro c hc a ha
    refine SortedSet.mem_union.mpr (.inl (SortedSet.mem_union.mpr ?_))
    rcases (hmem c).mp hc with hc | hc
    · exact .inl (KnowledgeBase.mem_atoms.mpr ⟨c, hc, ha⟩)
    · exact .inr (KnowledgeBase.mem_atoms.mpr ⟨c, hm.subset hc, ha⟩)

/-- **Explanations are the candidates that pass the test.** -/
theorem explains_iff (hφ : φ.ReservedFree)
    (hsize : ((strict.atoms.union defeasible.atoms).union φ.atoms).size ≤
      maxAlphabetSize) :
    Explains strict defeasible φ J ↔
      J.toList ∈ choose J.size defeasible.toList ∧
        refutes strict.materialized.toList φ.negate J.toList = .ok true := by
  have hset : SortedSet.ofList J.toList = J := SortedSet.ofList_toList J
  rw [mem_choose]
  constructor
  · intro h
    have hsub := SortedSet.toList_sublist_of_subset h.1
    obtain ⟨b, hb, hiff⟩ := exists_refutes_eq_ok hφ hsize hsub
    rw [hset] at hiff
    exact ⟨⟨hsub, rfl⟩, by rw [hb, hiff.mpr h.2]⟩
  · intro h
    obtain ⟨⟨hsub, _⟩, hpass⟩ := h
    obtain ⟨b, hb, hiff⟩ := exists_refutes_eq_ok hφ hsize hsub
    rw [hb, Except.ok.injEq] at hpass
    rw [hset] at hiff
    exact ⟨fun s hs => hsub.subset hs, hiff.mp hpass⟩

/-- The sets made of the hits of one size are the explanations of that
size. -/
theorem mem_ofList_hits_iff (hφ : φ.ReservedFree)
    (hsize : ((strict.atoms.union defeasible.atoms).union φ.atoms).size ≤
      maxAlphabetSize)
    {k : Nat} {hits : List (List Conditional)}
    (hhits : ∀ m, m ∈ hits ↔ m ∈ choose k defeasible.toList ∧
      refutes strict.materialized.toList φ.negate m = .ok true) :
    J ∈ SortedSet.ofList (hits.map SortedSet.ofList) ↔
      Explains strict defeasible φ J ∧ J.size = k := by
  rw [SortedSet.mem_ofList, List.mem_map, explains_iff hφ hsize]
  constructor
  · intro h
    obtain ⟨m, hm, rfl⟩ := h
    obtain ⟨hchoose, hpass⟩ := (hhits m).mp hm
    -- A hit lists a set already, so making a set of it changes nothing.
    obtain ⟨J, _, hk, rfl⟩ := mem_choose_toList_iff.mp hchoose
    rw [SortedSet.ofList_toList, hk]
    exact ⟨⟨hchoose, hpass⟩, rfl⟩
  · intro h
    obtain ⟨⟨hchoose, hpass⟩, rfl⟩ := h
    refine ⟨J.toList, (hhits _).mpr ⟨hchoose, hpass⟩, ?_⟩
    exact SortedSet.ofList_toList J

/-- The search succeeds.  What it lists are the explanations of least size,
and it lists some if there are any. -/
theorem exists_justifications_eq_ok (hφ : φ.ReservedFree)
    (hsize : ((strict.atoms.union defeasible.atoms).union φ.atoms).size ≤
      maxAlphabetSize) :
    ∃ t, justifications strict defeasible φ = .ok t ∧
      (∀ J, J ∈ t.value ↔ Explains strict defeasible φ J ∧
        ∀ K, Explains strict defeasible φ K → J.size ≤ K.size) ∧
      ((∃ J, Explains strict defeasible φ J) → ∃ J, J ∈ t.value) := by
  -- The size of any explanation is one of those that are tried.
  have htried : ∀ K, Explains strict defeasible φ K →
      K.size ∈ List.range (defeasible.size + 1) := by
    intro K hK
    have hle : K.size ≤ defeasible.size := SortedSet.size_le_of_subset hK.1
    rw [List.mem_range]
    omega
  have hrun : ∃ r, firstHits (refutes strict.materialized.toList φ.negate)
      defeasible.toList (List.range (defeasible.size + 1)) = .ok r :=
    exists_firstHits_eq_ok fun m hm =>
      (exists_refutes_eq_ok hφ hsize hm).imp fun _ hb => hb.1
  obtain ⟨r, hr⟩ := hrun
  rw [justifications]
  simp only [hr]
  cases r with
  | none =>
      have hnone : ∀ K, ¬ Explains strict defeasible φ K := by
        intro K hK
        obtain ⟨hchoose, hpass⟩ := (explains_iff hφ hsize).mp hK
        exact firstHits_eq_ok_none hr _ (htried K hK) _ hchoose hpass
      refine ⟨_, rfl, ?_, ?_⟩
      · intro J
        constructor
        · intro hJ
          exact absurd hJ (SortedSet.not_mem_empty J)
        · intro hJ
          exact absurd hJ.1 (hnone J)
      · intro hex
        obtain ⟨J, hJ⟩ := hex
        exact absurd hJ (hnone J)
  | some found =>
      obtain ⟨k, hits⟩ := found
      obtain ⟨hne, hhits, hsmaller⟩ :=
        firstHits_eq_ok_some List.pairwise_lt_range hr
      have hleast : ∀ K, Explains strict defeasible φ K → k ≤ K.size := by
        intro K hK
        obtain ⟨hchoose, hpass⟩ := (explains_iff hφ hsize).mp hK
        by_contra hlt
        exact hsmaller _ (htried K hK) (by omega) _ hchoose hpass
      -- A first hit, so that the least size is `k` indeed.
      obtain ⟨m, hm⟩ := List.exists_mem_of_ne_nil hits hne
      have hfirst : SortedSet.ofList m ∈
          SortedSet.ofList (hits.map SortedSet.ofList) :=
        SortedSet.mem_ofList.mpr (List.mem_map.mpr ⟨m, hm, rfl⟩)
      obtain ⟨hexpl, hk⟩ := (mem_ofList_hits_iff hφ hsize hhits).mp hfirst
      refine ⟨_, rfl, ?_, ?_⟩
      · intro J
        rw [mem_ofList_hits_iff hφ hsize hhits]
        constructor
        · intro hJ
          exact ⟨hJ.1, fun K hK => hJ.2.symm ▸ hleast K hK⟩
        · intro hJ
          have hle : J.size ≤ k := hk ▸ hJ.2 _ hexpl
          exact ⟨hJ.1, Nat.le_antisymm hle (hleast J hJ.1)⟩
      · intro _
        exact ⟨_, hfirst⟩

end Justification

/-- **The justifications are the smallest explanations.**  For a reserved-free
formula whose atoms fit an alphabet together with those of all conditionals,
the search succeeds, and what it lists are exactly the explanations that no
explanation undercuts in size.  So no listed one has a proper part that
explains, all have one size, none of that size is missed, and nothing is
listed exactly if there is no explanation. -/
theorem justifications_are_the_smallest_explanations
    {strict defeasible : KnowledgeBase} {φ : Formula} (hφ : φ.ReservedFree)
    (hsize : ((strict.atoms.union defeasible.atoms).union φ.atoms).size ≤
      maxAlphabetSize) :
    ∃ t, justifications strict defeasible φ = .ok t ∧
      (∀ J, J ∈ t.value ↔ Explains strict defeasible φ J ∧
        ∀ K, Explains strict defeasible φ K → J.size ≤ K.size) ∧
      (∀ J ∈ t.value, ∀ K : KnowledgeBase, K.toSet ⊆ J.toSet → K ≠ J →
        ¬ Explains strict defeasible φ K) ∧
      (∀ J ∈ t.value, ∀ K, K ∈ t.value ↔
        Explains strict defeasible φ K ∧ K.size = J.size) ∧
      (t.value = ∅ ↔ ¬ ∃ J, Explains strict defeasible φ J) := by
  obtain ⟨t, ht, hmem, hsome⟩ :=
    Justification.exists_justifications_eq_ok hφ hsize
  refine ⟨t, ht, hmem, ?_, ?_, ?_⟩
  · intro J hJ K hKJ hne hK
    have hle : J.size ≤ K.size := ((hmem J).mp hJ).2 K hK
    exact hne (SortedSet.eq_of_subset_of_size_le hKJ hle)
  · intro J hJ K
    obtain ⟨hexJ, hleastJ⟩ := (hmem J).mp hJ
    rw [hmem K]
    constructor
    · intro hK
      exact ⟨hK.1, Nat.le_antisymm (hK.2 J hexJ) (hleastJ K hK.1)⟩
    · intro hK
      exact ⟨hK.1, fun L hL => hK.2.symm ▸ hleastJ L hL⟩
  · constructor
    · intro hempty hex
      obtain ⟨J, hJ⟩ := hsome hex
      rw [hempty] at hJ
      exact SortedSet.not_mem_empty J hJ
    · intro hnone
      apply SortedSet.ext
      intro J
      constructor
      · intro hJ
        exact absurd ⟨J, ((hmem J).mp hJ).1⟩ hnone
      · intro hJ
        exact absurd hJ (SortedSet.not_mem_empty J)

theorem justifications_of_penguins :
    (Formula.leaf (.positive ⟨"p"⟩)).ReservedFree ∧
      ((penguins.separate.1.atoms.union penguins.separate.2.atoms).union
        (Formula.leaf (.positive ⟨"p"⟩)).atoms).size ≤ maxAlphabetSize ∧
      ∃ t, justifications penguins.separate.1 penguins.separate.2
          (.leaf (.positive ⟨"p"⟩)) = .ok t ∧
        ∀ J, J ∈ t.value ↔
          Explains penguins.separate.1 penguins.separate.2
            (.leaf (.positive ⟨"p"⟩)) J ∧
          ∀ K, Explains penguins.separate.1 penguins.separate.2
            (.leaf (.positive ⟨"p"⟩)) K → J.size ≤ K.size := by
  have hφ : (Formula.leaf (.positive ⟨"p"⟩)).ReservedFree := by decide
  have hsize :
      ((penguins.separate.1.atoms.union penguins.separate.2.atoms).union
        (Formula.leaf (.positive ⟨"p"⟩)).atoms).size ≤ maxAlphabetSize := by
    decide
  obtain ⟨t, ht, hmem, _⟩ :=
    justifications_are_the_smallest_explanations hφ hsize
  exact ⟨hφ, hsize, t, ht, hmem⟩

end SystemZ
