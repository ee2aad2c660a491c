/-
  SystemZ.Proofs.StrictRules
  ──────────────────────────
  **STRICT RULES ARE INFINITE, AND COUNT ONLY FOR WHAT THEY SAY TOGETHER.**

  Neither construction looks whether a conditional is classical.  But the
  strict reading of a classical conditional denies its antecedent, so alone it
  is already exceptional: it survives every round of the stratification.  And
  a valuation falsifies it by making its antecedent true, so of the valuations
  that falsify it none could be the first to settle: all have infinite rank.

  A valuation of finite rank therefore obeys all strict rules.  If some strict
  rules are replaced by others that hold under the same assignments, it obeys
  those, too, and the old model satisfies the new base.  That goes both ways,
  and each model is the least that satisfies its base.  The ranks of the
  defeasible conditionals follow, since they are read off the model.

  Main results:
    `rankOf?_eq_infinite_of_isClassical`    strict rules have infinite rank
    `worldRank_eq_infinite_of_isClassical`  so has who falsifies one
    `rankOver_union_eq_of_holdAlike`        other rules, the same model
    `exists_rankOf?_eq_of_holdAlike`        and the same ranks beside them
    `strict_rules_count_jointly`
-/
import SystemZ.Proofs.AntecedentRanks
import SystemZ.Proofs.LeastRanking
import SystemZ.Proofs.UsedRanks

namespace SystemZ

/-! ## §1. Infinite ranks. -/

/-- The strict reading of a classical conditional denies its antecedent. -/
theorem Conditional.holds_materialize_of_isClassical {s : Conditional}
    (hs : s.ReservedFree) (hclassical : s.isClassical = true)
    (value : Atom → Bool) :
    s.materialize.holds value = !s.antecedent.holds value := by
  rw [materialize, if_pos hclassical, Formula.holds_negate _ hs.1]

/-- So the strict rule that `x` holds says that `x` holds. -/
theorem Conditional.holds_materialize_classical {x : Operand}
    (hx : x.toFormula.ReservedFree) (value : Atom → Bool) :
    (classical x).materialize.holds value = x.holds value := by
  have hbot : Formula.bot.ReservedFree := by decide
  have hres : (classical x).ReservedFree := ⟨hx.negate, hbot⟩
  rw [holds_materialize_of_isClassical hres rfl, classical,
    Formula.holds_neg hx, Bool.not_not]

/-- **A strict rule has infinite rank**: alone it is exceptional already. -/
theorem Stratification.Sorts.rankOf?_eq_infinite_of_isClassical
    {z : Stratification} {base : Set Conditional} {s : Conditional}
    (hz : z.Sorts exceptionalIn base) (hs : s ∈ base) (hres : s.ReservedFree)
    (hclassical : s.isClassical = true) : z.rankOf? s = some .infinite := by
  have hself : ∀ t ∈ ({s} : Set Conditional), Refutes {s} t.antecedent := by
    rintro t rfl ⟨value, hante, hstrict⟩
    have hreading := hstrict t rfl
    rw [Conditional.holds_materialize_of_isClassical hres hclassical,
      hante] at hreading
    cases hreading
  rw [hz.rankOf?_eq_infinite_iff]
  intro i
  exact subset_exceptionalLevel (Set.singleton_subset_iff.mpr hs) hself i rfl

namespace KnowledgeBase

variable {kb : KnowledgeBase} {α : Alphabet} {v : Valuation} {s : Conditional}

/-- No valuation that falsifies a strict rule settles, by level `i` or before. -/
theorem not_worldRank_le_of_isClassical (hs : s ∈ kb) (hres : s.ReservedFree)
    (hclassical : s.isClassical = true) (i : Nat)
    (hfalse : v.satisfies s.materialize = false) :
    ¬ kb.worldRank α v ≤ .finite i := by
  -- Descent: it would take one below it that meets the antecedent, which
  -- falsifies the rule again.
  induction i using Nat.strong_induction_on generalizing v with
  | _ i ih =>
      intro hle
      rw [worldRank_le_iff] at hle
      obtain ⟨u, _, hlt, hsat⟩ := hle s hs hfalse
      obtain ⟨k, hk, hki⟩ := Rank.lt_finite_iff.mp hlt
      have hfalse' : u.satisfies s.materialize = false := by
        rw [Valuation.satisfies,
          Conditional.holds_materialize_of_isClassical hres hclassical]
        show (!u.satisfies s.antecedent) = false
        rw [hsat]
        rfl
      exact ih k hki hfalse' (le_of_eq hk)

/-- **A valuation that falsifies a strict rule has infinite rank**, over any
alphabet. -/
theorem worldRank_eq_infinite_of_isClassical (hs : s ∈ kb)
    (hres : s.ReservedFree) (hclassical : s.isClassical = true)
    (hfalse : v.satisfies s.materialize = false) :
    kb.worldRank α v = .infinite :=
  Rank.forall_not_le_finite_iff.mp fun i =>
    not_worldRank_le_of_isClassical hs hres hclassical i hfalse

/-! ## §2. Strict rules that hold alike. -/

/-- All conditionals are strict rules. -/
def IsStrict (kb : KnowledgeBase) : Prop :=
  ∀ s ∈ kb, s.isClassical = true

instance : Decidable kb.IsStrict :=
  inferInstanceAs (Decidable (∀ s ∈ kb.toList, s.isClassical = true))

/-- All strict readings are true under an assignment. -/
def HoldsUnder (kb : KnowledgeBase) (value : Atom → Bool) : Prop :=
  ∀ s ∈ kb, s.materialize.holds value = true

/-- The strict readings of the two bases are jointly true under the same
assignments. -/
def HoldAlike (kb kb' : KnowledgeBase) : Prop :=
  ∀ value : Atom → Bool, kb.HoldsUnder value ↔ kb'.HoldsUnder value

variable {strict strict' defeasible : KnowledgeBase}

theorem HoldAlike.symm (h : strict.HoldAlike strict') :
    strict'.HoldAlike strict := fun value => (h value).symm

/-- **The model with some strict rules satisfies the base with others** that
hold under the same assignments. -/
theorem satisfiedBy_union_of_holdAlike (hstrict : strict.IsStrict)
    (hres : strict.ReservedFree) (halike : strict.HoldAlike strict') :
    SatisfiedBy (strict'.union defeasible) α
      (worldRank (strict.union defeasible) α) := by
  intro s hs v hv hfinite hfalse
  rcases SortedSet.mem_union.mp hs with hs | hs
  · -- A falsified new rule means a falsified old one, so an infinite rank.
    exfalso
    have hnot : ¬ strict.HoldsUnder v.value := by
      rw [halike]
      intro hall
      rw [Valuation.satisfies, hall s hs] at hfalse
      cases hfalse
    unfold HoldsUnder at hnot
    push Not at hnot
    obtain ⟨t, ht, htfalse⟩ := hnot
    have hrank : worldRank (strict.union defeasible) α v = .infinite :=
      worldRank_eq_infinite_of_isClassical
        (SortedSet.mem_union.mpr (.inl ht)) (hres t ht) (hstrict t ht)
        (Bool.not_eq_true _ ▸ htfalse)
    rw [hrank] at hfinite
    cases hfinite
  · exact satisfiedBy_worldRank s (SortedSet.mem_union.mpr (.inr hs)) v hv
      hfinite hfalse

theorem ReservedFree.union (hstrict : strict.ReservedFree)
    (hdefeasible : defeasible.ReservedFree) :
    ReservedFree (strict.union defeasible) := by
  intro s hs
  rcases SortedSet.mem_union.mp hs with hs | hs
  · exact hstrict s hs
  · exact hdefeasible s hs

section HoldAlike

variable (hstrict : strict.IsStrict) (hstrict' : strict'.IsStrict)
  (hres : strict.ReservedFree) (hres' : strict'.ReservedFree)
  (halike : strict.HoldAlike strict')

include hstrict hstrict' hres hres' halike

/-- **Strict rules that hold alike give equal models**, with the same
conditionals beside them. -/
theorem rankOver_union_eq_of_holdAlike (defeasible : KnowledgeBase)
    (α : Alphabet) :
    (rankOver (strict.union defeasible) α).value =
      (rankOver (strict'.union defeasible) α).value := by
  apply rankOver_eq_of_worldRank_eq
  intro v hα
  apply le_antisymm
  · exact worldRank_le_of_satisfiedBy
      (satisfiedBy_union_of_holdAlike hstrict' hres' halike.symm) hα
  · exact worldRank_le_of_satisfiedBy
      (satisfiedBy_union_of_holdAlike hstrict hres halike) hα

/-- So the conditionals beside them have the same ranks. -/
theorem exists_rankOf?_eq_of_holdAlike (hdefeasible : defeasible.ReservedFree)
    (hsize : (atoms ((strict.union strict').union defeasible)).size ≤
      maxAlphabetSize) :
    ∃ t t', stratify (strict.union defeasible) = .ok t ∧
      stratify (strict'.union defeasible) = .ok t' ∧
      ∀ d ∈ defeasible, ∃ r, t.value.rankOf? d = some r ∧
        t'.value.rankOf? d = some r := by
  -- One alphabet for both bases, to read the ranks off one model.
  let β : Alphabet := ⟨atoms ((strict.union strict').union defeasible), hsize⟩
  have hβ : ∀ a ∈ atoms (strict.union defeasible), a ∈ β.atoms := by
    intro a ha
    simp only [β, mem_atoms_union] at ha ⊢
    rcases ha with ha | ha <;> simp [ha]
  have hβ' : ∀ a ∈ atoms (strict'.union defeasible), a ∈ β.atoms := by
    intro a ha
    simp only [β, mem_atoms_union] at ha ⊢
    rcases ha with ha | ha <;> simp [ha]
  obtain ⟨t, ht, hz⟩ := exists_stratify_eq_ok (hres.union hdefeasible)
    (Alphabet.size_le_of_subset hβ)
  obtain ⟨t', ht', hz'⟩ := exists_stratify_eq_ok (hres'.union hdefeasible)
    (Alphabet.size_le_of_subset hβ')
  have hmodels := rankOver_union_eq_of_holdAlike hstrict hstrict' hres hres'
    halike defeasible β
  refine ⟨t, t', ht, ht', ?_⟩
  intro d hd
  exact hz.exists_rankOf?_eq_of_ranksAt_eq hz' hβ hβ'
    (SortedSet.mem_union.mpr (.inr hd)) (SortedSet.mem_union.mpr (.inr hd))
    (by rw [hmodels])

end HoldAlike

/-! ## §3. Whole bases. -/

/-- **Strict rules are infinite, and count only for what they say together.**

In a reserved-free base whose atoms fit an alphabet every strict rule has
infinite rank, and over any alphabet so has every valuation that falsifies
one.

Let some conditionals be added to either of two sets of strict rules, all of
it reserved-free and its atoms fitting an alphabet together.  If the two sets
of rules are jointly true under the same assignments, then the conditionals
have the same ranks beside either, and the ranked models are equal over any
alphabet. -/
theorem strict_rules_count_jointly :
    (∀ kb : KnowledgeBase, kb.ReservedFree →
      kb.atoms.size ≤ maxAlphabetSize →
      ∃ t, kb.stratify = .ok t ∧
        (∀ s ∈ kb, s.isClassical = true →
          t.value.rankOf? s = some .infinite) ∧
        ∀ α : Alphabet, ∃ m, kb.minimalModel (some α) = .ok m ∧
          ∀ s ∈ kb, s.isClassical = true → ∀ v : Valuation, v.alphabet = α →
            v.satisfies s.materialize = false →
              m.value.rank? v = some .infinite) ∧
    (∀ strict strict' defeasible : KnowledgeBase,
      strict.IsStrict → strict'.IsStrict → strict.ReservedFree →
      strict'.ReservedFree → defeasible.ReservedFree →
      (atoms ((strict.union strict').union defeasible)).size ≤
        maxAlphabetSize →
      strict.HoldAlike strict' →
      ∃ t t', stratify (strict.union defeasible) = .ok t ∧
        stratify (strict'.union defeasible) = .ok t' ∧
        (∀ d ∈ defeasible, ∃ r, t.value.rankOf? d = some r ∧
          t'.value.rankOf? d = some r) ∧
        ∀ α : Alphabet, ∃ m m',
          minimalModel (strict.union defeasible) (some α) = .ok m ∧
          minimalModel (strict'.union defeasible) (some α) = .ok m' ∧
          m.value = m'.value) := by
  constructor
  · intro kb hres hsize
    obtain ⟨t, ht, hz⟩ := exists_stratify_eq_ok hres hsize
    refine ⟨t, ht, ?_, ?_⟩
    · intro s hs hclassical
      exact hz.rankOf?_eq_infinite_of_isClassical hs (hres s hs) hclassical
    · intro α
      refine ⟨kb.rankOver α, kb.minimalModel_some α, ?_⟩
      intro s hs hclassical v hv hfalse
      rw [rank?_rankOver hv, worldRank_eq_infinite_of_isClassical hs
        (hres s hs) hclassical hfalse]
  · intro strict strict' defeasible hstrict hstrict' hres hres' hdefeasible
      hsize halike
    obtain ⟨t, t', ht, ht', hranks⟩ := exists_rankOf?_eq_of_holdAlike hstrict
      hstrict' hres hres' halike hdefeasible hsize
    refine ⟨t, t', ht, ht', hranks, ?_⟩
    intro α
    exact ⟨rankOver (strict.union defeasible) α,
      rankOver (strict'.union defeasible) α, minimalModel_some _ α,
      minimalModel_some _ α, rankOver_union_eq_of_holdAlike hstrict hstrict'
        hres hres' halike defeasible α⟩

/-- The birds of the penguins, without a word on who is one. -/
def wildBirds : KnowledgeBase :=
  let bird := Operand.literal (.positive ⟨"b"⟩)
  let flies := Operand.literal (.positive ⟨"f"⟩)
  let penguin := Operand.literal (.positive ⟨"p"⟩)
  .ofList [.normally bird flies,
    .normally (.formula (.conj bird penguin)) (.formula (.neg flies))]

/-- Penguins are birds, by one rule. -/
def penguinRule : KnowledgeBase :=
  let bird := Operand.literal (.positive ⟨"b"⟩)
  let penguin := Operand.literal (.positive ⟨"p"⟩)
  .ofList [.classical (.formula (.imp penguin bird))]

/-- Penguins are birds, by two rules, of which one is a tautology in an atom
of its own. -/
def penguinRules : KnowledgeBase :=
  let bird := Operand.literal (.positive ⟨"b"⟩)
  let penguin := Operand.literal (.positive ⟨"p"⟩)
  let whale := Operand.literal (.positive ⟨"w"⟩)
  .ofList [.classical (.formula (.disj (.formula (.neg penguin)) bird)),
    .classical (.formula (.disj whale (.formula (.neg whale))))]

theorem strict_rules_of_penguins_count_jointly :
    penguinRule.size ≠ penguinRules.size ∧
      penguinRule.HoldAlike penguinRules ∧
      (∃ t, penguins.stratify = .ok t ∧
        ∀ s ∈ penguins, s.isClassical = true →
          t.value.rankOf? s = some .infinite) ∧
      ∃ t t', stratify (penguinRule.union wildBirds) = .ok t ∧
        stratify (penguinRules.union wildBirds) = .ok t' ∧
        (∀ d ∈ wildBirds, ∃ r, t.value.rankOf? d = some r ∧
          t'.value.rankOf? d = some r) ∧
        ∀ α : Alphabet, ∃ m m',
          minimalModel (penguinRule.union wildBirds) (some α) = .ok m ∧
          minimalModel (penguinRules.union wildBirds) (some α) = .ok m' ∧
          m.value = m'.value := by
  have halike : penguinRule.HoldAlike penguinRules := by
    intro value
    have hformula : ∀ f : Formula,
        (Operand.formula f).holds value = f.holds value := fun _ => rfl
    simp only [HoldsUnder, penguinRule, penguinRules, SortedSet.mem_ofList,
      List.mem_cons, List.not_mem_nil, or_false, forall_eq_or_imp, forall_eq]
    rw [Conditional.holds_materialize_classical (by decide),
      Conditional.holds_materialize_classical (by decide),
      Conditional.holds_materialize_classical (by decide)]
    simp only [hformula, Formula.holds_imp, Formula.holds_disj]
    rw [Formula.holds_neg (by decide), Formula.holds_neg (by decide)]
    simp
  obtain ⟨hinfinite, hjoint⟩ := strict_rules_count_jointly
  obtain ⟨t, ht, hranks, _⟩ := hinfinite penguins (by decide) (by decide)
  exact ⟨by decide, halike, ⟨t, ht, hranks⟩,
    hjoint penguinRule penguinRules wildBirds (by decide) (by decide)
      (by decide) (by decide) (by decide) (by decide) halike⟩

end KnowledgeBase

end SystemZ
