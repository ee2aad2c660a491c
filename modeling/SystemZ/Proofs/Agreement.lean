/-
  SystemZ.Proofs.Agreement
  ────────────────────────
  **RANKED MODEL AND STRATIFICATION ARE TWO VIEWS OF ONE RANKING.**

  The stratification knows conditionals and assignments, the ranked model the
  valuations of one alphabet.  If the alphabet covers the base, the two climb
  in step: a conditional is in level `i` exactly when its antecedent is true
  at no valuation of rank below `i`, and a valuation has rank at most `i`
  exactly when it obeys level `i`.  Each half at `i` gives the other, and the
  second at `i` gives the first at `i + 1`.

  Main results:
    `mem_exceptionalLevel_iff`            levels, by the ranks of valuations
    `worldRank_le_iff_level`              ranks, by the levels
    `minimalModel_agrees_with_stratify`   the two constructions agree
-/
import SystemZ.Proofs.Exceptionality
import SystemZ.Proofs.Ladder

namespace SystemZ

/-! ## §1. Climbing in step. -/

namespace KnowledgeBase

variable {kb : KnowledgeBase} {α : Alphabet} {v : Valuation} {i : Nat}

/-- The antecedent of a conditional is true at no valuation of rank below
`i`. -/
def UnmetBelow (kb : KnowledgeBase) (α : Alphabet) (i : Nat)
    (s : Conditional) : Prop :=
  ¬ ∃ u : Valuation, u.alphabet = α ∧ kb.worldRank α u < .finite i ∧
    u.satisfies s.antecedent = true

theorem worldRank_le_iff_of_unmet {level : Set Conditional}
    (hlevel : ∀ s, s ∈ level ↔ s ∈ kb ∧ kb.UnmetBelow α i s) :
    kb.worldRank α v ≤ .finite i ↔
      ∀ s ∈ level, v.satisfies s.materialize = true := by
  rw [worldRank_le_iff]
  constructor
  · intro h s hs
    obtain ⟨hkb, hunmet⟩ := (hlevel s).mp hs
    by_contra hfalse
    exact hunmet (h s hkb (Bool.not_eq_true _ ▸ hfalse))
  · intro h s hs hfalse
    by_contra hunmet
    have htrue := h s ((hlevel s).mpr ⟨hs, hunmet⟩)
    rw [hfalse] at htrue
    cases htrue

/-- **Levels, by the ranks of valuations.** -/
theorem mem_exceptionalLevel_iff (hα : ∀ a ∈ kb.atoms, a ∈ α.atoms) (i : Nat)
    (s : Conditional) :
    s ∈ exceptionalLevel kb.toSet i ↔ s ∈ kb ∧ kb.UnmetBelow α i s := by
  -- The induction is on the level, for every conditional at once: who lies
  -- below `i + 1` is decided by level `i` as a whole.
  induction i generalizing s with
  | zero =>
      rw [exceptionalLevel_zero, SortedSet.mem_toSet]
      constructor
      · intro hs
        refine ⟨hs, ?_⟩
        intro hmet
        obtain ⟨u, _, hlt, _⟩ := hmet
        exact Rank.not_lt_zero _ hlt
      · intro hs
        exact hs.1
  | succ i ih =>
      have hcover : ∀ t ∈ kb, ∀ a ∈ t.atoms, a ∈ α.atoms :=
        fun t ht a ha => hα a (mem_atoms.mpr ⟨t, ht, ha⟩)
      have hlower : ∀ u : Valuation, kb.worldRank α u < .finite (i + 1) ↔
          ∀ t ∈ exceptionalLevel kb.toSet i,
            u.satisfies t.materialize = true := by
        intro u
        rw [Rank.lt_succ_iff]
        exact worldRank_le_iff_of_unmet ih
      -- All atoms are covered, so assignments are valuations here.
      have hrefutes : s ∈ kb → (Refutes (exceptionalLevel kb.toSet i)
          s.antecedent ↔ kb.UnmetBelow α (i + 1) s) := by
        intro hs
        rw [refutes_iff_of_alphabet (α := α)
          (fun a ha => hcover s hs a (Conditional.mem_atoms_of_antecedent ha))
          (fun t ht => hcover t ((ih t).mp ht).1), UnmetBelow, not_iff_not]
        simp only [hlower, and_comm]
      rw [exceptionalLevel_succ]
      constructor
      · intro hs
        have hkb := ((ih s).mp hs.1).1
        exact ⟨hkb, (hrefutes hkb).mp hs.2⟩
      · intro hs
        obtain ⟨hkb, hunmet⟩ := hs
        have hlevel : s ∈ exceptionalLevel kb.toSet i := by
          refine (ih s).mpr ⟨hkb, ?_⟩
          -- What is unmet below `i + 1` is unmet below `i`.
          intro hmet
          obtain ⟨u, hu, hlt, hsat⟩ := hmet
          exact hunmet ⟨u, hu, Rank.lt_succ_iff.mpr (le_of_lt hlt), hsat⟩
        exact ⟨hlevel, (hrefutes hkb).mpr hunmet⟩

/-- **Ranks, by the levels.** -/
theorem worldRank_le_iff_level (hα : ∀ a ∈ kb.atoms, a ∈ α.atoms) :
    kb.worldRank α v ≤ .finite i ↔
      ∀ s ∈ exceptionalLevel kb.toSet i, v.satisfies s.materialize = true :=
  worldRank_le_iff_of_unmet (mem_exceptionalLevel_iff hα i)

end KnowledgeBase

/-! ## §2. Ranks of valuations from ranks of conditionals. -/

namespace Stratification

/-- A valuation makes true the strict reading of every conditional of the base
that has rank `i` or more. -/
def ObeysFrom (z : Stratification) (kb : KnowledgeBase) (v : Valuation)
    (i : Nat) : Prop :=
  ∀ s ∈ kb, (∃ r, z.rankOf? s = some r ∧ .finite i ≤ r) →
    v.satisfies s.materialize = true

/-- The ranks of the conditionals whose strict reading a valuation
falsifies. -/
def falsifiedRanks (z : Stratification) (kb : KnowledgeBase) (v : Valuation) :
    Set Rank :=
  {r | ∃ s ∈ kb, z.rankOf? s = some r ∧ v.satisfies s.materialize = false}

variable {z : Stratification} {kb : KnowledgeBase} {α : Alphabet}
  {v : Valuation} {i : Nat}

/-- A valuation has rank at most `i` exactly when it obeys the conditionals of
rank `i` or more. -/
theorem Sorts.worldRank_le_iff (hz : z.Sorts exceptionalIn kb.toSet)
    (hα : ∀ a ∈ kb.atoms, a ∈ α.atoms) :
    kb.worldRank α v ≤ .finite i ↔ z.ObeysFrom kb v i := by
  rw [KnowledgeBase.worldRank_le_iff_level hα]
  constructor
  · intro h s hs hrank
    exact h s ((hz.le_rankOf?_iff exceptionalIn_subset hs).mp hrank)
  · intro h s hs
    have hkb : s ∈ kb := iterate_subset exceptionalIn_subset (Nat.zero_le i) hs
    exact h s hkb ((hz.le_rankOf?_iff exceptionalIn_subset hkb).mpr hs)

/-- The rank of a falsified conditional is below that of the valuation, or
both are infinite. -/
theorem Sorts.succ_le_worldRank (hz : z.Sorts exceptionalIn kb.toSet)
    (hα : ∀ a ∈ kb.atoms, a ∈ α.atoms) {r : Rank}
    (hr : r ∈ z.falsifiedRanks kb v) : r.succ ≤ kb.worldRank α v := by
  obtain ⟨s, hs, hrank, hfalse⟩ := hr
  cases hv : kb.worldRank α v with
  | infinite => exact Rank.le_infinite _
  | finite n =>
      have hobeys : z.ObeysFrom kb v n := (hz.worldRank_le_iff hα).mp hv.le
      rw [Rank.succ_le_finite_iff, ← not_le]
      -- A conditional of rank `n` or more would be obeyed.
      intro hle
      rw [hobeys s hs ⟨r, hrank, hle⟩] at hfalse
      cases hfalse

theorem exists_falsified_of_not_le (hα : ∀ a ∈ kb.atoms, a ∈ α.atoms)
    (hv : ¬ kb.worldRank α v ≤ .finite i) :
    ∃ s ∈ exceptionalLevel kb.toSet i, v.satisfies s.materialize = false := by
  rw [KnowledgeBase.worldRank_le_iff_level hα] at hv
  push Not at hv
  obtain ⟨s, hs, hfalse⟩ := hv
  exact ⟨s, hs, Bool.not_eq_true _ ▸ hfalse⟩

/-- A valuation that is not of rank 0 falsifies a conditional just one rank
below its own. -/
theorem Sorts.exists_falsified_succ_eq (hz : z.Sorts exceptionalIn kb.toSet)
    (hα : ∀ a ∈ kb.atoms, a ∈ α.atoms)
    (hv : kb.worldRank α v ≠ .finite 0) :
    ∃ r ∈ z.falsifiedRanks kb v, kb.worldRank α v = r.succ := by
  have hkb : ∀ {i s}, s ∈ exceptionalLevel kb.toSet i → s ∈ kb :=
    fun hs => iterate_subset exceptionalIn_subset (Nat.zero_le _) hs
  cases hrank : kb.worldRank α v with
  | infinite =>
      -- The level of the residue is disobeyed, as all levels are.
      obtain ⟨s, hs, hfalse⟩ := exists_falsified_of_not_le hα
        (v := v) (i := z.strata.length) (by simp [hrank])
      have hresidue : s ∈ z.residue.toSet := by
        rw [(hz.residue_fixed exceptionalIn_subset).1]
        exact hs
      have hinf : z.rankOf? s = some .infinite :=
        hz.rankOf?_eq_infinite_iff.mpr ((hz.mem_residue s).mp hresidue)
      exact ⟨.infinite, ⟨s, hkb hs, hinf, hfalse⟩, rfl⟩
  | finite n =>
      cases n with
      | zero => exact absurd hrank hv
      | succ n =>
          obtain ⟨s, hs, hfalse⟩ := exists_falsified_of_not_le hα
            (v := v) (i := n) (by simp [hrank])
          -- It is not in the next level, which the valuation obeys.
          have hdrop : s ∉ exceptionalLevel kb.toSet (n + 1) := by
            intro hs'
            have hle : kb.worldRank α v ≤ .finite (n + 1) := hrank.le
            rw [KnowledgeBase.worldRank_le_iff_level hα] at hle
            rw [hle s hs'] at hfalse
            cases hfalse
          have hfin : z.rankOf? s = some (.finite n) :=
            (hz.rankOf?_eq_finite_iff exceptionalIn_subset).mpr ⟨hs, hdrop⟩
          exact ⟨.finite n, ⟨s, hkb hs, hfin, hfalse⟩, rfl⟩

/-- A valuation has rank 0 exactly when it falsifies nothing. -/
theorem Sorts.worldRank_eq_zero_iff (hz : z.Sorts exceptionalIn kb.toSet)
    (hα : ∀ a ∈ kb.atoms, a ∈ α.atoms) :
    kb.worldRank α v = .finite 0 ↔
      ∀ s ∈ kb, v.satisfies s.materialize = true := by
  constructor
  · intro hrank s hs
    exact (KnowledgeBase.worldRank_le_iff_level hα).mp hrank.le s hs
  · intro hall
    by_contra hrank
    obtain ⟨r, hr, _⟩ := hz.exists_falsified_succ_eq hα hrank
    obtain ⟨s, hs, _, hfalse⟩ := hr
    rw [hall s hs] at hfalse
    cases hfalse

/-- A valuation has infinite rank exactly when it falsifies a conditional of
infinite rank. -/
theorem Sorts.worldRank_eq_infinite_iff (hz : z.Sorts exceptionalIn kb.toSet)
    (hα : ∀ a ∈ kb.atoms, a ∈ α.atoms) :
    kb.worldRank α v = .infinite ↔ .infinite ∈ z.falsifiedRanks kb v := by
  constructor
  · intro hrank
    obtain ⟨r, hr, hsucc⟩ := hz.exists_falsified_succ_eq hα (v := v)
      (by simp [hrank])
    rw [hrank] at hsucc
    rwa [Rank.succ_eq_infinite_iff.mp hsucc.symm] at hr
  · intro hinf
    exact Rank.infinite_le_iff.mp (hz.succ_le_worldRank hα hinf)

/-- Any other valuation lies one above the greatest rank that it falsifies. -/
theorem Sorts.exists_isGreatest_falsifiedRanks
    (hz : z.Sorts exceptionalIn kb.toSet) (hα : ∀ a ∈ kb.atoms, a ∈ α.atoms)
    (hfalse : ∃ s ∈ kb, v.satisfies s.materialize = false) :
    ∃ r, IsGreatest (z.falsifiedRanks kb v) r ∧
      kb.worldRank α v = r.succ := by
  have hrank : kb.worldRank α v ≠ .finite 0 := by
    intro hzero
    obtain ⟨s, hs, hsfalse⟩ := hfalse
    rw [(hz.worldRank_eq_zero_iff hα).mp hzero s hs] at hsfalse
    cases hsfalse
  obtain ⟨r, hr, hsucc⟩ := hz.exists_falsified_succ_eq hα hrank
  refine ⟨r, ⟨hr, ?_⟩, hsucc⟩
  intro r' hr'
  exact Rank.le_of_succ_le_succ (hsucc ▸ hz.succ_le_worldRank hα hr')

end Stratification

/-- **Ranked model and stratification agree.**  Let an alphabet cover a
reserved-free base, so that every conditional has a rank.  Then a valuation
has finite rank `i` in the model exactly when `i` is the least rank from which
on it obeys the conditionals, and infinite rank exactly when there is none,
that is when it falsifies a conditional of infinite rank.  Said differently,
its rank is 0 exactly when it falsifies nothing, and else one above the
greatest rank that it falsifies. -/
theorem minimalModel_agrees_with_stratify {kb : KnowledgeBase} {α : Alphabet}
    (hres : kb.ReservedFree) (hα : ∀ a ∈ kb.atoms, a ∈ α.atoms) :
    ∃ t m, kb.stratify = .ok t ∧ kb.minimalModel (some α) = .ok m ∧
      (∀ s ∈ kb, ∃ r, t.value.rankOf? s = some r) ∧
      ∀ v : Valuation, v.alphabet = α →
        (∀ i, m.value.rank? v = some (.finite i) ↔
          IsLeast {i | t.value.ObeysFrom kb v i} i) ∧
        (m.value.rank? v = some .infinite ↔ ∀ i, ¬ t.value.ObeysFrom kb v i) ∧
        (m.value.rank? v = some .infinite ↔
          ∃ s ∈ kb, t.value.rankOf? s = some .infinite ∧
            v.satisfies s.materialize = false) ∧
        (m.value.rank? v = some (.finite 0) ↔
          ∀ s ∈ kb, v.satisfies s.materialize = true) ∧
        ((∃ s ∈ kb, v.satisfies s.materialize = false) →
          ∃ r, IsGreatest (t.value.falsifiedRanks kb v) r ∧
            m.value.rank? v = some r.succ) := by
  have hsize : kb.atoms.size ≤ maxAlphabetSize :=
    Nat.le_trans (SortedSet.size_le_of_subset hα) α.size_le
  obtain ⟨t, ht, hz⟩ := KnowledgeBase.exists_stratify_eq_ok hres hsize
  refine ⟨t, kb.rankOver α, ht, kb.minimalModel_some α, ?_, ?_⟩
  · intro s hs
    exact hz.exists_rankOf?_eq exceptionalIn_subset hs
  intro v hv
  rw [KnowledgeBase.rank?_rankOver hv]
  simp only [Option.some.injEq]
  -- The bounds of obedience are the bounds of the rank.
  have hset : {i | t.value.ObeysFrom kb v i} =
      {i | kb.worldRank α v ≤ .finite i} :=
    Set.ext fun i => (hz.worldRank_le_iff hα).symm
  refine ⟨?_, ?_, ?_, ?_, ?_⟩
  · intro i
    rw [hset, Rank.isLeast_bounds_iff]
  · rw [← Rank.forall_not_le_finite_iff]
    simp only [hz.worldRank_le_iff hα]
  · exact hz.worldRank_eq_infinite_iff hα
  · exact hz.worldRank_eq_zero_iff hα
  · exact hz.exists_isGreatest_falsifiedRanks hα

/-- The atoms of the penguins, and one more. -/
def birdAlphabet : Alphabet where
  atoms := .ofList [⟨"b"⟩, ⟨"f"⟩, ⟨"p"⟩, ⟨"w"⟩]
  size_le := by decide

theorem minimalModel_agrees_on_penguins :
    penguins.ReservedFree ∧ (∀ a ∈ penguins.atoms, a ∈ birdAlphabet.atoms) ∧
      ∃ t m, penguins.stratify = .ok t ∧
        penguins.minimalModel (some birdAlphabet) = .ok m ∧
        ∀ v : Valuation, v.alphabet = birdAlphabet →
          ∀ i, m.value.rank? v = some (.finite i) ↔
            IsLeast {i | t.value.ObeysFrom penguins v i} i := by
  have hres : penguins.ReservedFree := by decide
  have hα : ∀ a ∈ penguins.atoms, a ∈ birdAlphabet.atoms :=
    SortedSet.subset_iff.mp (by decide)
  obtain ⟨t, m, ht, hm, _, hagree⟩ := minimalModel_agrees_with_stratify hres hα
  exact ⟨hres, hα, t, m, ht, hm, fun v hv => (hagree v hv).1⟩

end SystemZ
