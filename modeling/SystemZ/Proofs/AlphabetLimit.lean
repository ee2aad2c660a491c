/-
  SystemZ.Proofs.AlphabetLimit
  ────────────────────────────
  **THE LIMIT OF 63 ATOMS, AND WHERE IT STRIKES.**

  Every procedure infers its alphabets from formulas at hand, and but for
  ranked models an alphabet that would be too large is the only thing that can
  go wrong.  Negations and strict readings of reserved-free formulas mention
  the same atoms as what they are made of.  So entailment fails exactly beyond
  the limit on formulas and target together; a stratification fails, if at
  all, at the first conditional of its first round, where all atoms of the
  base are present; and the search for justifications fails exactly if a
  candidate that it reaches is too large.  It reaches all candidates that are
  not larger than the smallest explanation.

  A ranked model exists up to the limit, but it is not computed that far.  Its
  valuations are put in a list, and there is no list for those of 58 atoms or
  more: between this and the limit, computing the model fails although the
  alphabet is not too large.

  Main results:
    `entails_failsBeyondLimit`         the atoms of formulas and target count
    `stratify_failsBeyondLimit`        the atoms of the base count
    `firstHits_eq_error`, `exists_firstHits_eq_error`   where a search fails
    `exists_justifications_eq_error_iff`   the candidates that are reached
    `tabulateModel_none_eq_error_iff`  the two ways to fail for a ranked model
    `procedures_fail_exactly_beyond_limits`
-/
import SystemZ.Proofs.SmallestJustifications
import SystemZ.RankedModel

namespace SystemZ

/-! ## §1. Failing beyond the limit. -/

/-- A computation fails exactly if there are more of some atoms than an
alphabet may have, and then it reports how many there are. -/
def FailsBeyondLimit {ρ : Type} (x : Except AlphabetError ρ)
    (s : SortedSet Atom) : Prop :=
  ∀ e, x = .error e ↔
    maxAlphabetSize < s.size ∧ e = .tooManyAtoms s.size

section Limit

variable {ρ : Type} {x : Except AlphabetError ρ} {s : SortedSet Atom}

theorem failsBeyondLimit_of (hfit : s.size ≤ maxAlphabetSize → ∃ r, x = .ok r)
    (hlarge : maxAlphabetSize < s.size → x = .error (.tooManyAtoms s.size)) :
    FailsBeyondLimit x s := by
  intro e
  by_cases hsize : s.size ≤ maxAlphabetSize
  · obtain ⟨r, hr⟩ := hfit hsize
    rw [hr]
    simp only [reduceCtorEq, false_iff, not_and]
    omega
  · have hlt : maxAlphabetSize < s.size := by omega
    rw [hlarge hlt, Except.error.injEq, and_iff_right hlt, eq_comm]

theorem FailsBeyondLimit.exists_error_iff (h : FailsBeyondLimit x s) :
    (∃ e, x = .error e) ↔ maxAlphabetSize < s.size := by
  unfold FailsBeyondLimit at h
  simp only [h, exists_and_left, exists_eq, and_true]

/-- Where there is a result, the atoms fit an alphabet. -/
theorem FailsBeyondLimit.size_le_of_ok (h : FailsBeyondLimit x s) {r : ρ}
    (hr : x = .ok r) : s.size ≤ maxAlphabetSize := by
  by_contra hsize
  obtain ⟨e, he⟩ := h.exists_error_iff.mpr (by omega)
  rw [hr] at he
  cases he

end Limit

/-- Building an alphabet fails beyond the limit. -/
theorem Alphabet.ofSet_failsBeyondLimit (s : SortedSet Atom) :
    FailsBeyondLimit (Alphabet.ofSet s) s := by
  apply failsBeyondLimit_of
  · intro hfit
    exact ⟨⟨s, hfit⟩, dif_pos hfit⟩
  · intro hlarge
    exact dif_neg (by omega)

/-! ## §2. Entailment. -/

section Entailment

variable {fs : List Formula} {t : Formula}

theorem mem_occurringAtoms_append {gs : List Formula} {a : Atom} :
    a ∈ occurringAtoms (fs ++ gs) ↔
      a ∈ occurringAtoms fs ∨ a ∈ occurringAtoms gs := by
  simp only [mem_occurringAtoms, List.mem_append, or_and_right, exists_or]

theorem mem_occurringAtoms_singleton {a : Atom} :
    a ∈ occurringAtoms [t] ↔ a ∈ t.atoms := by
  simp [mem_occurringAtoms]

/-- Negating the last formula does not change which atoms occur. -/
theorem occurringAtoms_append_negate (ht : t.ReservedFree) :
    occurringAtoms (fs ++ [t.negate]) = occurringAtoms (fs ++ [t]) := by
  apply SortedSet.ext
  intro a
  rw [mem_occurringAtoms_append, mem_occurringAtoms_append,
    mem_occurringAtoms_singleton, mem_occurringAtoms_singleton,
    Formula.atoms_negate ht]

theorem satisfiable_none_failsBeyondLimit (fs : List Formula) :
    FailsBeyondLimit (satisfiable fs none) (occurringAtoms fs) := by
  apply failsBeyondLimit_of
  · intro hfit
    obtain ⟨b, hb, _⟩ := exists_satisfiable_eq_ok hfit
    exact ⟨b, hb⟩
  · intro hlarge
    rw [satisfiable, models, Alphabet.orOfFormulas, Alphabet.ofFormulas_eq,
      Alphabet.ofSet, dif_neg (by omega)]

/-- **Entailment fails beyond the limit** on formulas and target together. -/
theorem entails_failsBeyondLimit (ht : t.ReservedFree) :
    FailsBeyondLimit (entails fs t) (occurringAtoms (fs ++ [t])) := by
  have hsat := satisfiable_none_failsBeyondLimit (fs ++ [t.negate])
  rw [occurringAtoms_append_negate ht] at hsat
  apply failsBeyondLimit_of
  · intro hfit
    obtain ⟨b, hb, _⟩ := exists_entails_eq_ok ht hfit
    exact ⟨b, hb⟩
  · intro hlarge
    rw [entails, unsatisfiable, (hsat _).mpr ⟨hlarge, rfl⟩]

end Entailment

/-! ## §3. Knowledge bases. -/

namespace KnowledgeBase

variable {kb : KnowledgeBase}

/-- The atoms of a base are those of its strict readings. -/
theorem occurringAtoms_materialized (hres : kb.ReservedFree) :
    occurringAtoms kb.materialized.toList = kb.atoms := by
  apply SortedSet.ext
  intro a
  simp only [mem_occurringAtoms, SortedSet.mem_toList, mem_materialized,
    mem_atoms]
  constructor
  · rintro ⟨f, ⟨s, hs, rfl⟩, ha⟩
    exact ⟨s, hs, Conditional.atoms_materialize (hres s hs) ▸ ha⟩
  · rintro ⟨s, hs, ha⟩
    exact ⟨s.materialize, ⟨s, hs, rfl⟩,
      (Conditional.atoms_materialize (hres s hs)).symm ▸ ha⟩

/-- With the negated antecedent of one of its conditionals the strict readings
mention all atoms of the base, and no others. -/
theorem occurringAtoms_round (hres : kb.ReservedFree) {s : Conditional}
    (hs : s ∈ kb) :
    occurringAtoms (kb.materialized.toList ++ [s.antecedent.negate]) =
      kb.atoms := by
  apply SortedSet.ext
  intro a
  rw [mem_occurringAtoms_append, occurringAtoms_materialized hres,
    mem_occurringAtoms_singleton, Formula.atoms_negate (hres s hs).1,
    or_iff_left_iff_imp]
  intro ha
  exact mem_atoms_of_mem hs (Conditional.mem_atoms_of_antecedent ha)

/-- A round of a base with too many atoms fails at its first conditional. -/
theorem exceptional_eq_error (hres : kb.ReservedFree)
    (hlarge : maxAlphabetSize < kb.atoms.size) :
    kb.exceptional = .error (.tooManyAtoms kb.atoms.size) := by
  have htest : ∀ s ∈ kb, entails kb.materialized.toList s.antecedent.negate =
      .error (.tooManyAtoms kb.atoms.size) := by
    intro s hs
    have hfails : FailsBeyondLimit
        (entails kb.materialized.toList s.antecedent.negate)
        (occurringAtoms (kb.materialized.toList ++ [s.antecedent.negate])) :=
      entails_failsBeyondLimit (hres s hs).1.negate
    rw [occurringAtoms_round hres hs] at hfails
    exact (hfails _).mpr ⟨hlarge, rfl⟩
  -- A base that mentions an atom has a conditional.
  have hne : kb.toList ≠ [] := by
    intro hnil
    have hempty : kb.atoms.size = 0 := by
      rw [atoms, hnil]
      rfl
    omega
  obtain ⟨s, rest, hlist⟩ := List.exists_cons_of_ne_nil hne
  have hs : s ∈ kb := by
    rw [SortedSet.mem_def, hlist]
    exact .head rest
  apply SortedSet.tryFilter_eq_error
  rw [hlist, SortedSet.tryFilterList, htest s hs]

/-- **A stratification fails beyond the limit** on the atoms of the base. -/
theorem stratify_failsBeyondLimit (hres : kb.ReservedFree) :
    FailsBeyondLimit kb.stratify kb.atoms := by
  apply failsBeyondLimit_of
  · intro hfit
    obtain ⟨t, ht, _⟩ := exists_stratify_eq_ok hres hfit
    exact ⟨t, ht⟩
  · intro hlarge
    have hround := exceptional_eq_error hres hlarge
    unfold stratify stratifyFrom
    split
    case h_1 e he =>
      rw [hround] at he
      cases he
      rfl
    case h_2 rest hrest =>
      rw [hround] at hrest
      cases hrest

/-- **So does a ranked model** over the atoms of the base. -/
theorem minimalModel_none_failsBeyondLimit (kb : KnowledgeBase) :
    FailsBeyondLimit (kb.minimalModel none) kb.atoms := by
  apply failsBeyondLimit_of
  · intro hfit
    exact ⟨_, minimalModel_none_of_le hfit⟩
  · exact minimalModel_none_of_lt

/-- **Computing it fails earlier**, at alphabets whose valuations are too many
for a list. -/
theorem tabulateModel_none_eq_error_iff (kb : KnowledgeBase) (e : ModelError) :
    kb.tabulateModel none = .error e ↔
      (maxAlphabetSize < kb.atoms.size ∧
        e = .alphabet (.tooManyAtoms kb.atoms.size)) ∨
      (maxListedSize < kb.atoms.size ∧ kb.atoms.size ≤ maxAlphabetSize ∧
        e = .capacityOverflow) := by
  rw [tabulateModel_eq]
  rcases Nat.lt_or_ge maxAlphabetSize kb.atoms.size with hlarge | hsize
  · rw [minimalModel_none_of_lt hlarge]
    show Except.error (ModelError.alphabet _) = .error e ↔ _
    rw [Except.error.injEq, and_iff_right hlarge, eq_comm, iff_self_or]
    omega
  · have hfits : Alphabet.fitsList ⟨kb.atoms, hsize⟩ = true ↔
        kb.atoms.size ≤ maxListedSize := Alphabet.fitsList_iff
    rw [minimalModel_none_of_le hsize]
    show (if Alphabet.fitsList ⟨kb.atoms, hsize⟩ then Except.ok _
      else .error .capacityOverflow) = .error e ↔ _
    simp only [hfits]
    split
    case isTrue hlist =>
      simp only [reduceCtorEq, false_iff]
      omega
    case isFalse hlist =>
      rw [Except.error.injEq, and_iff_right (Nat.lt_of_not_le hlist),
        and_iff_right hsize, eq_comm, iff_or_self]
      omega

end KnowledgeBase

/-! ## §4. Searches that fail. -/

namespace Justification

variable {test : List Conditional → Except AlphabetError Bool}
  {items m : List Conditional} {sizes : List Nat} {k : Nat}
  {e : AlphabetError}

/-- A search fails at a candidate, and all smaller ones have been tried in
vain. -/
theorem firstHits_eq_error (hsizes : sizes.Pairwise (· < ·))
    (h : firstHits test items sizes = .error e) :
    ∃ k ∈ sizes, (∃ m ∈ choose k items, test m = .error e) ∧
      ∀ j ∈ sizes, j < k → ∀ m ∈ choose j items, test m = .ok false := by
  induction sizes with
  | nil => cases h
  | cons i sizes ih =>
      obtain ⟨hfirst, hrest⟩ := List.pairwise_cons.mp hsizes
      rw [firstHits] at h
      split at h
      case h_1 e' he' =>
        cases h
        refine ⟨i, .head _, SortedSet.exists_of_tryFilterList_eq_error he', ?_⟩
        intro j hj hji
        -- No size of the list is smaller than its first.
        rcases List.mem_cons.mp hj with rfl | hj
        · omega
        · have := hfirst j hj
          omega
      case h_2 hkept =>
        obtain ⟨k, hk, hfail, hsmaller⟩ := ih hrest h
        refine ⟨k, .tail _ hk, hfail, ?_⟩
        intro j hj hjk m hm
        rcases List.mem_cons.mp hj with rfl | hj
        · obtain ⟨b, hb⟩ := SortedSet.exists_eq_ok_of_tryFilterList hkept hm
          cases b with
          | false => exact hb
          | true =>
              have hhit := (SortedSet.mem_tryFilterList hkept).mpr ⟨hm, hb⟩
              cases hhit
        · exact hsmaller j hj hjk m hm
      case h_3 => cases h

/-- A candidate that fails makes the search fail, unless a smaller one is a
hit. -/
theorem exists_firstHits_eq_error (hsizes : sizes.Pairwise (· < ·))
    (hk : k ∈ sizes) (hm : m ∈ choose k items) (hfail : test m = .error e)
    (hsmaller : ∀ j ∈ sizes, j < k → ∀ m ∈ choose j items,
      test m ≠ .ok true) :
    ∃ e', firstHits test items sizes = .error e' := by
  induction sizes with
  | nil => cases hk
  | cons i sizes ih =>
      obtain ⟨hfirst, hrest⟩ := List.pairwise_cons.mp hsizes
      rw [firstHits]
      split
      case h_1 e' he' => exact ⟨e', rfl⟩
      case h_2 hkept =>
        rcases List.mem_cons.mp hk with rfl | hk
        · -- All candidates of this size have been tested, `m` too.
          obtain ⟨b, hb⟩ := SortedSet.exists_eq_ok_of_tryFilterList hkept hm
          rw [hfail] at hb
          cases hb
        · exact ih hrest hk fun j hj => hsmaller j (.tail _ hj)
      case h_3 hit hits hkept =>
        exfalso
        obtain ⟨hhit, hpass⟩ :=
          (SortedSet.mem_tryFilterList hkept).mp (.head hits)
        rcases List.mem_cons.mp hk with rfl | hk
        · obtain ⟨b, hb⟩ := SortedSet.exists_eq_ok_of_tryFilterList hkept hm
          rw [hfail] at hb
          cases hb
        · exact hsmaller i (.head _) (hfirst k hk) hit hhit hpass

/-! ## §5. Justifications. -/

/-- The atoms that strict conditionals, a candidate and a formula mention. -/
def mentionedAtoms (strict J : KnowledgeBase) (φ : Formula) :
    SortedSet Atom :=
  (strict.atoms.union J.atoms).union φ.atoms

variable {strict defeasible J : KnowledgeBase} {φ : Formula} {b : Bool}

theorem mem_mentionedAtoms {a : Atom} : a ∈ mentionedAtoms strict J φ ↔
    (a ∈ strict.atoms ∨ a ∈ J.atoms) ∨ a ∈ φ.atoms := by
  rw [mentionedAtoms, SortedSet.mem_union, SortedSet.mem_union]

/-- **The test of a candidate fails beyond the limit** on what is mentioned. -/
theorem refutes_failsBeyondLimit (hstrict : strict.ReservedFree)
    (hJ : J.ReservedFree) (hφ : φ.ReservedFree) :
    FailsBeyondLimit (refutes strict.materialized.toList φ.negate J.toList)
      (mentionedAtoms strict J φ) := by
  have hatoms : occurringAtoms ((strict.materialized.toList ++
      J.toList.map Conditional.materialize) ++ [φ.negate]) =
        mentionedAtoms strict J φ := by
    apply SortedSet.ext
    intro a
    have hcandidate : a ∈ occurringAtoms
        (J.toList.map Conditional.materialize) ↔ a ∈ J.atoms := by
      rw [← KnowledgeBase.occurringAtoms_materialized hJ]
      simp [mem_occurringAtoms, KnowledgeBase.mem_materialized]
    rw [mem_occurringAtoms_append, mem_occurringAtoms_append,
      mem_occurringAtoms_singleton, Formula.atoms_negate hφ, hcandidate,
      KnowledgeBase.occurringAtoms_materialized hstrict, mem_mentionedAtoms]
  rw [← hatoms]
  exact entails_failsBeyondLimit hφ.negate

/-- An answer to the test of a candidate is right. -/
theorem refutes_eq_ok_iff (hstrict : strict.ReservedFree)
    (hJ : J.ReservedFree) (hφ : φ.ReservedFree)
    (h : refutes strict.materialized.toList φ.negate J.toList = .ok b) :
    b = true ↔ Refutes (strict.toSet ∪ J.toSet) φ := by
  have hfit : (mentionedAtoms strict J φ).size ≤ maxAlphabetSize :=
    (refutes_failsBeyondLimit hstrict hJ hφ).size_le_of_ok h
  have hbase : ∀ f, f ∈ strict.materialized.toList ++
      J.toList.map Conditional.materialize ↔
        ∃ c ∈ strict.toSet ∪ J.toSet, c.materialize = f := by
    intro f
    simp [KnowledgeBase.mem_materialized, or_and_right, exists_or]
  obtain ⟨b', hb', hiff⟩ := exists_entails_negate_eq_ok hbase hφ hfit
    (fun a ha => mem_mentionedAtoms.mpr (.inr ha)) (by
      rintro c (hc | hc) a ha
      · exact mem_mentionedAtoms.mpr
          (.inl (.inl (KnowledgeBase.mem_atoms_of_mem hc ha)))
      · exact mem_mentionedAtoms.mpr
          (.inl (.inr (KnowledgeBase.mem_atoms_of_mem hc ha))))
  rw [refutes, hb', Except.ok.injEq] at h
  exact h ▸ hiff

/-- The justifications fail where their search does. -/
theorem justifications_eq_error_iff {e : AlphabetError} :
    justifications strict defeasible φ = .error e ↔
      firstHits (refutes strict.materialized.toList φ.negate)
        defeasible.toList (List.range (defeasible.size + 1)) = .error e := by
  rw [justifications]
  simp only
  split <;> simp_all

/-- **The search fails exactly if a candidate that is not larger than any
explanation mentions too many atoms.** -/
theorem exists_justifications_eq_error_iff (hstrict : strict.ReservedFree)
    (hdef : defeasible.ReservedFree) (hφ : φ.ReservedFree) :
    (∃ e, justifications strict defeasible φ = .error e) ↔
      ∃ J : KnowledgeBase, J.toSet ⊆ defeasible.toSet ∧
        maxAlphabetSize < (mentionedAtoms strict J φ).size ∧
        ∀ K, Explains strict defeasible φ K → J.size ≤ K.size := by
  have hfree : ∀ J : KnowledgeBase, J.toSet ⊆ defeasible.toSet →
      J.ReservedFree := fun J hJ s hs => hdef s (hJ hs)
  have htried : ∀ J : KnowledgeBase, J.toSet ⊆ defeasible.toSet →
      J.size ∈ List.range (defeasible.size + 1) := by
    intro J hJ
    have hle : J.size ≤ defeasible.size := SortedSet.size_le_of_subset hJ
    rw [List.mem_range]
    omega
  simp only [justifications_eq_error_iff]
  constructor
  · rintro ⟨e, he⟩
    obtain ⟨k, _, ⟨m, hm, hfail⟩, hsmaller⟩ :=
      firstHits_eq_error List.pairwise_lt_range he
    obtain ⟨J, hJ, rfl, rfl⟩ := mem_choose_toList_iff.mp hm
    have hlarge := (refutes_failsBeyondLimit hstrict (hfree J hJ) hφ).exists_error_iff.mp
      ⟨e, hfail⟩
    refine ⟨J, hJ, hlarge, ?_⟩
    intro K hK
    by_contra hlt
    -- A smaller explanation would have been tried, and not in vain.
    have hno := hsmaller K.size (htried K hK.1) (by omega) K.toList
      (mem_choose_toList_iff.mpr ⟨K, hK.1, rfl, rfl⟩)
    have hyes := (refutes_eq_ok_iff hstrict (hfree K hK.1) hφ hno).mpr hK.2
    cases hyes
  · rintro ⟨J, hJ, hlarge, hleast⟩
    obtain ⟨e, hfail⟩ :=
      (refutes_failsBeyondLimit hstrict (hfree J hJ) hφ).exists_error_iff.mpr
        hlarge
    refine exists_firstHits_eq_error List.pairwise_lt_range (htried J hJ)
      (mem_choose_toList_iff.mpr ⟨J, hJ, rfl, rfl⟩) hfail ?_
    intro j _ hj m hm hhit
    obtain ⟨K, hK, rfl, rfl⟩ := mem_choose_toList_iff.mp hm
    have hex : Explains strict defeasible φ K :=
      ⟨hK, (refutes_eq_ok_iff hstrict (hfree K hK) hφ hhit).mp rfl⟩
    have := hleast K hex
    omega

end Justification

/-! ## §6. All procedures. -/

/-- **The procedures fail exactly beyond their limits.**  A stratification
fails if the base has more than 63 atoms, and reports their number; entailment
fails if formulas and target together have more.  The search for justifications
fails if a set of defeasible conditionals, with the strict ones and the
formula, has more, and no explanation is smaller than that set.  The ranked
model of a base fails to exist if the base has more than 63 atoms; computing it
fails in the same way, and it fails for lack of a list if there are 58 to 63 of
them. -/
theorem procedures_fail_exactly_beyond_limits
    {kb strict defeasible : KnowledgeBase} (fs : List Formula) {t φ : Formula}
    (hkb : kb.ReservedFree) (ht : t.ReservedFree)
    (hstrict : strict.ReservedFree) (hdef : defeasible.ReservedFree)
    (hφ : φ.ReservedFree) :
    FailsBeyondLimit kb.stratify kb.atoms ∧
      FailsBeyondLimit (kb.minimalModel none) kb.atoms ∧
      (∀ e, kb.tabulateModel none = .error e ↔
        (maxAlphabetSize < kb.atoms.size ∧
          e = .alphabet (.tooManyAtoms kb.atoms.size)) ∨
        (maxListedSize < kb.atoms.size ∧ kb.atoms.size ≤ maxAlphabetSize ∧
          e = .capacityOverflow)) ∧
      FailsBeyondLimit (entails fs t) (occurringAtoms (fs ++ [t])) ∧
      ((∃ e, justifications strict defeasible φ = .error e) ↔
        ∃ J : KnowledgeBase, J.toSet ⊆ defeasible.toSet ∧
          maxAlphabetSize < (Justification.mentionedAtoms strict J φ).size ∧
          ∀ K, Explains strict defeasible φ K → J.size ≤ K.size) := by
  refine ⟨?_, ?_, ?_, ?_, ?_⟩
  · exact kb.stratify_failsBeyondLimit hkb
  · exact kb.minimalModel_none_failsBeyondLimit
  · exact kb.tabulateModel_none_eq_error_iff
  · exact entails_failsBeyondLimit ht
  · exact Justification.exists_justifications_eq_error_iff hstrict hdef hφ

/-- A formula of `n` atoms. -/
def crowdOf (n : Nat) : Formula :=
  (List.range n).foldr (fun i rest => .conj
    (.literal (.positive ⟨String.singleton (Char.ofNat (i + 256))⟩))
    (.formula rest)) .top

/-- A formula of 64 atoms. -/
def crowd : Formula := crowdOf 64

/-- Crowds are noisy. -/
def noisy (φ : Formula) : KnowledgeBase :=
  .ofList [.normally (.formula φ) (.literal (.positive ⟨"noise"⟩))]

/-- The crowd is too large for every procedure, but a search that ends before
it comes to the crowd does not fail. -/
theorem procedures_fail_on_crowd :
    (noisy crowd).ReservedFree ∧ crowd.ReservedFree ∧
      (noisy crowd).stratify = .error (.tooManyAtoms 65) ∧
      (noisy crowd).minimalModel none = .error (.tooManyAtoms 65) ∧
      (noisy crowd).tabulateModel none =
        .error (.alphabet (.tooManyAtoms 65)) ∧
      entails [] crowd = .error (.tooManyAtoms 64) ∧
      (∃ e, justifications ∅ (noisy crowd) .top = .error e) ∧
      ¬ ∃ e, justifications ∅ (noisy crowd) .bot = .error e := by
  have hres : (noisy crowd).ReservedFree := by decide +kernel
  have hcrowd : crowd.ReservedFree := by decide +kernel
  have hempty : (∅ : KnowledgeBase).ReservedFree := by decide
  have hatoms : (noisy crowd).atoms.size = 65 := by decide +kernel
  have hmentioned :
      (Justification.mentionedAtoms ∅ (noisy crowd) .top).size = 65 := by
    decide +kernel
  have hformula : (occurringAtoms ([] ++ [crowd])).size = 64 := by
    decide +kernel
  have htruth : Formula.top.ReservedFree := by decide
  have hfalsum : Formula.bot.ReservedFree := by decide
  obtain ⟨hstratify, hmodel, htable, hentails, htop⟩ :=
    procedures_fail_exactly_beyond_limits [] hres hcrowd hempty hres htruth
  obtain ⟨_, _, _, _, hbot⟩ :=
    procedures_fail_exactly_beyond_limits [] hres hcrowd hempty hres hfalsum
  refine ⟨hres, hcrowd, ?_, ?_, ?_, ?_, ?_, ?_⟩
  · rw [hstratify, hatoms]
    exact ⟨by decide, rfl⟩
  · rw [hmodel, hatoms]
    exact ⟨by decide, rfl⟩
  · rw [htable, hatoms]
    exact .inl ⟨by decide, rfl⟩
  · rw [hentails, hformula]
    exact ⟨by decide, rfl⟩
  · rw [htop]
    refine ⟨noisy crowd, fun _ hs => hs, by rw [hmentioned]; decide, ?_⟩
    intro K hK
    -- Where no atom is true there is no crowd, so nothing refutes `⊤`.
    have hquiet : ∀ s ∈ noisy crowd,
        s.materialize.holds (fun _ => false) = true := by
      decide +kernel
    refine absurd ⟨fun _ => false, rfl, ?_⟩ hK.2
    rintro s (hs | hs)
    · exact absurd hs (SortedSet.not_mem_empty s)
    · exact hquiet s (hK.1 hs)
  · rw [hbot]
    rintro ⟨J, _, hlarge, hleast⟩
    -- Nothing at all refutes `⊥`.
    have hnone : Explains ∅ (noisy crowd) .bot ∅ := by
      refine ⟨fun s hs => absurd hs (SortedSet.not_mem_empty s), ?_⟩
      rintro ⟨value, hbot, _⟩
      cases hbot
    have hsize : J.size ≤ 0 := hleast ∅ hnone
    have hJ : J = ∅ :=
      SortedSet.toList_injective
        (List.length_eq_zero_iff.mp (Nat.le_zero.mp hsize))
    rw [hJ] at hlarge
    exact absurd hlarge (by decide)

/-- A base of 63 atoms, no more than the limit: it has a stratification and a
ranked model, but the model is not computed. -/
theorem noisy_crowd_within_limit_overflows :
    (noisy (crowdOf 62)).ReservedFree ∧
      (noisy (crowdOf 62)).atoms.size = maxAlphabetSize ∧
      (∃ t, (noisy (crowdOf 62)).stratify = .ok t) ∧
      (∃ t, (noisy (crowdOf 62)).minimalModel none = .ok t) ∧
      (noisy (crowdOf 62)).tabulateModel none = .error .capacityOverflow := by
  have hres : (noisy (crowdOf 62)).ReservedFree := by decide +kernel
  have hatoms : (noisy (crowdOf 62)).atoms.size = 63 := by decide +kernel
  obtain ⟨t, ht, _⟩ := KnowledgeBase.exists_stratify_eq_ok hres
    (Nat.le_of_eq hatoms)
  have hmodel :=
    KnowledgeBase.minimalModel_none_of_le (Nat.le_of_eq hatoms)
  refine ⟨hres, hatoms, ⟨t, ht⟩, ⟨_, hmodel⟩, ?_⟩
  rw [KnowledgeBase.tabulateModel_none_eq_error_iff, hatoms]
  exact .inr ⟨by decide, by decide, rfl⟩

end SystemZ
