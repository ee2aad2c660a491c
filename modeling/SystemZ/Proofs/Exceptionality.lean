/-
  SystemZ.Proofs.Exceptionality
  ─────────────────────────────
  **STRATA ARE LEVELS OF EXCEPTIONALITY, OVER ALL ASSIGNMENTS.**

  A conditional is exceptional in a set when the set refutes its antecedent.
  Level 0 is the whole base, and each level above keeps what is exceptional in
  the level below.  Keeping the exceptional ones is monotone, so what is in
  all levels is the largest set of conditionals that are exceptional for each
  other.

  Main results:
    `exists_exceptional_eq_ok`          a round of the construction is one level
    `subset_exceptionalLevel`           no self-exceptional set is ever cut
    `stratify_sorts_by_exceptionality`  strata, residue and its greatness
-/
import Mathlib.Data.Set.Lattice
import SystemZ.Proofs.Refutation
import SystemZ.Proofs.Rounds

namespace SystemZ

/-! ## §1. Levels of exceptionality. -/

/-- The conditionals of a set whose antecedent the set refutes. -/
def exceptionalIn (base : Set Conditional) : Set Conditional :=
  {s | s ∈ base ∧ Refutes base s.antecedent}

/-- What is left of a base after `i` rounds of keeping the exceptional
conditionals. -/
def exceptionalLevel (base : Set Conditional) (i : Nat) : Set Conditional :=
  exceptionalIn^[i] base

theorem exceptionalIn_subset (base : Set Conditional) :
    exceptionalIn base ⊆ base := fun _ hs => hs.1

theorem exceptionalIn_mono {base base' : Set Conditional}
    (h : base ⊆ base') : exceptionalIn base ⊆ exceptionalIn base' :=
  fun _ hs => ⟨h hs.1, hs.2.mono h⟩

theorem exceptionalLevel_zero (base : Set Conditional) :
    exceptionalLevel base 0 = base := rfl

theorem exceptionalLevel_succ (base : Set Conditional) (i : Nat) :
    exceptionalLevel base (i + 1) = exceptionalIn (exceptionalLevel base i) :=
  Function.iterate_succ_apply' exceptionalIn i base

/-- Conditionals that are exceptional for each other survive every round. -/
theorem subset_exceptionalLevel {base S : Set Conditional} (hS : S ⊆ base)
    (hself : ∀ s ∈ S, Refutes S s.antecedent) (i : Nat) :
    S ⊆ exceptionalLevel base i := by
  induction i with
  | zero => exact hS
  | succ i ih =>
      rw [exceptionalLevel_succ]
      have hkeep : S ⊆ exceptionalIn S := fun s hs => ⟨hs, hself s hs⟩
      exact hkeep.trans (exceptionalIn_mono ih)

/-! ## §2. The construction computes them. -/

namespace KnowledgeBase

variable {kb : KnowledgeBase}

/-- **A round of the construction is one level**, for a reserved-free base
whose atoms fit an alphabet. -/
theorem exists_exceptional_eq_ok (hres : kb.ReservedFree)
    (hsize : kb.atoms.size ≤ maxAlphabetSize) :
    ∃ rest, kb.exceptional = .ok rest ∧
      rest.toSet = exceptionalIn kb.toSet := by
  have htest : ∀ s ∈ kb, ∃ b,
      entails kb.materialized.toList s.antecedent.negate = .ok b ∧
        (b = true ↔ Refutes kb.toSet s.antecedent) := by
    intro s hs
    apply exists_entails_negate_eq_ok
    · intro f
      exact mem_materialized
    · exact (hres s hs).1
    · exact hsize
    · intro a ha
      exact mem_atoms.mpr ⟨s, hs, Conditional.mem_atoms_of_antecedent ha⟩
    · intro c hc a ha
      exact mem_atoms.mpr ⟨c, hc, ha⟩
  obtain ⟨rest, hrest⟩ := SortedSet.exists_tryFilter_eq_ok fun s hs =>
    (htest s hs).imp fun _ hb => hb.1
  refine ⟨rest, hrest, Set.ext fun s => ?_⟩
  rw [SortedSet.mem_toSet, SortedSet.mem_tryFilter hrest]
  constructor
  · intro h
    obtain ⟨hs, hyes⟩ := h
    obtain ⟨b, hb, hiff⟩ := htest s hs
    rw [hb, Except.ok.injEq] at hyes
    exact ⟨hs, hiff.mp hyes⟩
  · intro h
    obtain ⟨hs, href⟩ := h
    obtain ⟨b, hb, hiff⟩ := htest s hs
    exact ⟨hs, by rw [hb, hiff.mpr href]⟩

/-- The stratification of such a base sorts it by exceptionality. -/
theorem exists_stratify_eq_ok (hres : kb.ReservedFree)
    (hsize : kb.atoms.size ≤ maxAlphabetSize) :
    ∃ t, kb.stratify = .ok t ∧ t.value.Sorts exceptionalIn kb.toSet := by
  -- Parts of the base are reserved-free and small enough with it.
  have hround : ∀ sub : KnowledgeBase, (∀ s ∈ sub, s ∈ kb) →
      ∃ rest, sub.exceptional = .ok rest ∧
        rest.toSet = exceptionalIn sub.toSet := by
    intro sub hsub
    apply exists_exceptional_eq_ok
    · exact fun s hs => hres s (hsub s hs)
    · exact Nat.le_trans
        (SortedSet.size_le_of_subset fun _ => mem_atoms_of_subset hsub) hsize
  obtain ⟨t, ht⟩ := exists_stratifyFrom_eq_ok 0 fun sub hsub =>
    (hround sub hsub).imp fun _ hrest => hrest.1
  refine ⟨t, ht, stratifyFrom_sorts exceptionalIn_subset ?_ ht⟩
  intro sub rest hsub hrest
  obtain ⟨rest', hrest', htoSet⟩ := hround sub hsub
  rw [hrest, Except.ok.injEq] at hrest'
  rw [hrest', htoSet]

end KnowledgeBase

/-- What no round drops is the largest set of conditionals of the base that
are exceptional for each other. -/
theorem Stratification.Sorts.residue_isGreatest {z : Stratification}
    {base : Set Conditional} (hz : z.Sorts exceptionalIn base) :
    IsGreatest {S | S ⊆ base ∧ ∀ s ∈ S, Refutes S s.antecedent}
      z.residue.toSet := by
  obtain ⟨_, hfixed⟩ := hz.residue_fixed exceptionalIn_subset
  constructor
  · constructor
    · intro s hs
      exact (hz.mem_residue s).mp hs 0
    · intro s hs
      rw [← hfixed] at hs
      exact hs.2
  · intro S h s hs
    obtain ⟨hS, hself⟩ := h
    exact (hz.mem_residue s).mpr fun i => subset_exceptionalLevel hS hself i hs

/-! ## §3. The stratification, level by level. -/

/-- **Strata are levels of exceptionality.**  For a reserved-free base whose
atoms fit an alphabet, stratum `i` is what level `i` has and level `i + 1` has
not, and is absent if that is nothing.  The residue is what all levels share,
the largest set of conditionals of the base that are exceptional for each
other. -/
theorem stratify_sorts_by_exceptionality {kb : KnowledgeBase}
    (hres : kb.ReservedFree) (hsize : kb.atoms.size ≤ maxAlphabetSize) :
    ∃ t, kb.stratify = .ok t ∧
      (∀ i, (exceptionalLevel kb.toSet i \
          exceptionalLevel kb.toSet (i + 1)).Nonempty →
        ∃ part, t.value.get? (.finite i) = some part ∧
          part.toSet = exceptionalLevel kb.toSet i \
            exceptionalLevel kb.toSet (i + 1)) ∧
      (∀ i, exceptionalLevel kb.toSet i \
          exceptionalLevel kb.toSet (i + 1) = ∅ →
        t.value.get? (.finite i) = none) ∧
      t.value.residue.toSet = ⋂ i, exceptionalLevel kb.toSet i ∧
      IsGreatest {S | S ⊆ kb.toSet ∧ ∀ s ∈ S, Refutes S s.antecedent}
        t.value.residue.toSet := by
  obtain ⟨t, ht, hsorts⟩ := KnowledgeBase.exists_stratify_eq_ok hres hsize
  refine ⟨t, ht, ?_, ?_, ?_, hsorts.residue_isGreatest⟩
  · intro i h
    obtain ⟨s, hs⟩ := h
    obtain ⟨part, hpart, _⟩ := (hsorts.mem_stratum i s).mpr hs
    exact ⟨part, hpart, hsorts.toSet_stratum hpart⟩
  · intro i hempty
    cases hget : t.value.get? (.finite i) with
    | none => rfl
    | some part =>
        obtain ⟨s, hs⟩ := hsorts.nonempty part (List.mem_of_getElem? hget)
        have hs' : s ∈ exceptionalLevel kb.toSet i \
            exceptionalLevel kb.toSet (i + 1) :=
          hsorts.toSet_stratum hget ▸ hs
        rw [hempty] at hs'
        cases hs'
  · ext s
    rw [SortedSet.mem_toSet, hsorts.mem_residue, Set.mem_iInter]
    rfl

/-- Birds fly, birds that are penguins do not, and penguins are birds without
exception. -/
def penguins : KnowledgeBase :=
  let bird := Operand.literal (.positive ⟨"b"⟩)
  let flies := Operand.literal (.positive ⟨"f"⟩)
  let penguin := Operand.literal (.positive ⟨"p"⟩)
  .ofList [.normally bird flies,
    .normally (.formula (.conj bird penguin)) (.formula (.neg flies)),
    .classical (.formula (.imp penguin bird))]

theorem stratify_sorts_penguins :
    penguins.ReservedFree ∧ penguins.atoms.size ≤ maxAlphabetSize ∧
      ∃ t, penguins.stratify = .ok t ∧
        t.value.residue.toSet = ⋂ i, exceptionalLevel penguins.toSet i ∧
        IsGreatest {S | S ⊆ penguins.toSet ∧ ∀ s ∈ S, Refutes S s.antecedent}
          t.value.residue.toSet := by
  have hres : penguins.ReservedFree := by decide
  have hsize : penguins.atoms.size ≤ maxAlphabetSize := by decide
  obtain ⟨t, ht, _, _, hresidue, hgreatest⟩ :=
    stratify_sorts_by_exceptionality hres hsize
  exact ⟨hres, hsize, t, ht, hresidue, hgreatest⟩

end SystemZ
