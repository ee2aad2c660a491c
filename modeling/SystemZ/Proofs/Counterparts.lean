/-
  SystemZ.Proofs.Counterparts
  ───────────────────────────
  **ONLY THE MEANING OF CONDITIONALS MATTERS FOR RANKING, NOT THEIR FORM.**

  Two conditionals agree when their antecedents have the same truth values and
  their consequents have, too.  They may be written in any way: the consequent
  of one may be `⊥` itself, which its strict reading recognises, and that of
  the other only equivalent to `⊥`.  Two bases are counterparts when each
  conditional of the one agrees with some conditional of the other.  They need
  not have the same size or the same atoms.

  Strict readings that are reserved-free mean implications, so agreeing
  conditionals have strict readings of the same truth.  That is all that
  ranking reads, for valuations and for conditionals alike.

  Main results:
    `classical_agrees_loose`          `⊥`, or a contradiction in its place
    `Agrees.holds_materialize_congr`  strict readings of agreeing conditionals
    `rankOver_eq_of_counterparts`     the ranked models are equal
    `mem_exceptionalLevel_of_agrees`  levels of exceptionality correspond
    `ranks_depend_on_meaning`
-/
import SystemZ.Proofs.Agreement
import SystemZ.Proofs.Matching

namespace SystemZ

/-! ## §1. Agreement. -/

/-- Under all assignments of a set, antecedents and consequents of the two
conditionals have the same truth values. -/
def Conditional.Agrees (V : Set (Atom → Bool)) (s t : Conditional) : Prop :=
  ∀ value ∈ V, s.antecedent.holds value = t.antecedent.holds value ∧
    s.consequent.holds value = t.consequent.holds value

/-- Each conditional of one set agrees with one of the other. -/
structure Counterparts (V : Set (Atom → Bool)) (S T : Set Conditional) :
    Prop where
  exists_right : ∀ s ∈ S, ∃ t ∈ T, s.Agrees V t
  exists_left : ∀ t ∈ T, ∃ s ∈ S, s.Agrees V t

/-- The assignments that valuations of an alphabet give. -/
def Alphabet.assignments (α : Alphabet) : Set (Atom → Bool) :=
  {value | ∃ v : Valuation, v.alphabet = α ∧ v.value = value}

/-- The two valuations give the same assignment, and it is in a set. -/
def Valuation.SameIn (V : Set (Atom → Bool)) (u v : Valuation) : Prop :=
  u.value ∈ V ∧ u.value = v.value

variable {V : Set (Atom → Bool)} {S T : Set Conditional} {s t : Conditional}
  {value : Atom → Bool}

instance : Std.Symm (Valuation.SameIn V) where
  symm := by
    rintro u v ⟨hV, hvalue⟩
    exact ⟨hvalue ▸ hV, hvalue.symm⟩

namespace Conditional

theorem Agrees.refl (V : Set (Atom → Bool)) (s : Conditional) :
    s.Agrees V s := fun _ _ => ⟨rfl, rfl⟩

theorem Agrees.symm (h : s.Agrees V t) : t.Agrees V s :=
  fun value hV => ⟨(h value hV).1.symm, (h value hV).2.symm⟩

/-- The strict rule that `x` holds, with a contradiction in `y` for its
consequent in the place of `⊥`. -/
def looseClassical (x y : Operand) : Conditional :=
  ⟨Formula.neg x, Formula.conj y (.formula (Formula.neg y))⟩

/-- A contradiction is as good as `⊥`. -/
theorem classical_agrees_loose {x y : Operand}
    (hy : y.toFormula.ReservedFree) :
    (classical x).Agrees V (looseClassical x y) := by
  intro value _
  refine ⟨rfl, ?_⟩
  show Formula.bot.holds value =
    (Formula.conj y (.formula (Formula.neg y))).holds value
  rw [Formula.holds_conj, Operand.holds, Formula.holds_neg hy,
    Formula.holds_bot, Bool.and_not_self]

/-- **Agreeing conditionals have strict readings of the same truth**, by
whichever of the two ways each reading is formed. -/
theorem Agrees.holds_materialize_congr (h : s.Agrees V t)
    (hs : s.ReservedFree) (ht : t.ReservedFree) (hV : value ∈ V) :
    s.materialize.holds value = t.materialize.holds value := by
  obtain ⟨hante, hcons⟩ := h value hV
  rw [holds_materialize hs, holds_materialize ht, hante, hcons]

end Conditional

theorem Counterparts.symm (h : Counterparts V S T) : Counterparts V T S where
  exists_right t ht := (h.exists_left t ht).imp fun _ hs => ⟨hs.1, hs.2.symm⟩
  exists_left s hs := (h.exists_right s hs).imp fun _ ht => ⟨ht.1, ht.2.symm⟩

/-- Fewer assignments are easier to agree under. -/
theorem Counterparts.mono {W : Set (Atom → Bool)} (hsub : W ⊆ V)
    (h : Counterparts V S T) : Counterparts W S T where
  exists_right s hs := (h.exists_right s hs).imp fun _ ht =>
    ⟨ht.1, fun value hW => ht.2 value (hsub hW)⟩
  exists_left t ht := (h.exists_left t ht).imp fun _ hs =>
    ⟨hs.1, fun value hW => hs.2 value (hsub hW)⟩

/-! ## §2. Ranks of valuations. -/

namespace KnowledgeBase

variable {kb kb' : KnowledgeBase} {α : Alphabet}

/-- A base follows its counterpart along equality of values. -/
theorem follows_of_counterparts (hres : kb.ReservedFree)
    (hres' : kb'.ReservedFree)
    (h : Counterparts α.assignments kb.toSet kb'.toSet) :
    Follows (Valuation.SameIn α.assignments) kb α kb' α where
  exists_related u hu := ⟨u, hu, ⟨u, hu, rfl⟩, rfl⟩
  exists_readAlike t ht := by
    obtain ⟨s, hs, hagree⟩ := h.exists_left t ht
    refine ⟨s, hs, ?_⟩
    rintro u v ⟨hα, hvalue⟩
    unfold Valuation.satisfies
    rw [← hvalue]
    exact ⟨hagree.holds_materialize_congr (hres s hs) (hres' t ht) hα,
      (hagree u.value hα).1⟩

/-- **The models of counterparts match.** -/
theorem matches_of_counterparts (hres : kb.ReservedFree)
    (hres' : kb'.ReservedFree)
    (h : Counterparts α.assignments kb.toSet kb'.toSet) :
    Matches (Valuation.SameIn α.assignments) kb α kb' α :=
  .of_symmetric (follows_of_counterparts hres hres' h)
    (follows_of_counterparts hres' hres h.symm)

/-- **Counterparts have equal ranked models.** -/
theorem rankOver_eq_of_counterparts (hres : kb.ReservedFree)
    (hres' : kb'.ReservedFree)
    (h : Counterparts α.assignments kb.toSet kb'.toSet) :
    (kb.rankOver α).value = (kb'.rankOver α).value := by
  apply rankOver_eq_of_worldRank_eq
  intro v hα
  exact (matches_of_counterparts hres hres' h).worldRank_eq
    ⟨⟨v, hα, rfl⟩, rfl⟩

end KnowledgeBase

/-! ## §3. Ranks of conditionals. -/

/-- **Levels of exceptionality correspond**: one that survives `i` rounds has
only survivors among those that agree with it. -/
theorem mem_exceptionalLevel_of_agrees (hS : ∀ s ∈ S, s.ReservedFree)
    (hT : ∀ t ∈ T, t.ReservedFree)
    (h : ∀ s ∈ S, ∃ t ∈ T, s.Agrees Set.univ t) (i : Nat) (ht : t ∈ T)
    (hagree : s.Agrees Set.univ t) (hs : s ∈ exceptionalLevel S i) :
    t ∈ exceptionalLevel T i := by
  induction i generalizing s t with
  | zero => exact ht
  | succ i ih =>
      rw [exceptionalLevel_succ] at hs ⊢
      obtain ⟨hlevel, hrefutes⟩ := hs
      refine ⟨ih ht hagree hlevel, ?_⟩
      -- What meets the antecedent of `t` with its level meets that of `s` too,
      -- with a level whose conditionals all have survivors for counterparts.
      rintro ⟨value, hante, hstrict⟩
      refine hrefutes ⟨value, ?_, ?_⟩
      · rw [(hagree value (Set.mem_univ value)).1, hante]
      · intro c hc
        have hcS : c ∈ S :=
          iterate_subset exceptionalIn_subset (Nat.zero_le i) hc
        obtain ⟨d, hd, hcd⟩ := h c hcS
        rw [hcd.holds_materialize_congr (hS c hcS) (hT d hd)
          (Set.mem_univ value)]
        exact hstrict d (ih hd hcd hc)

/-- Where all conditionals of the first base have counterparts in the second,
ranks do not fall from the first to the second. -/
theorem Stratification.Sorts.rank_le_of_agrees {z z' : Stratification}
    (hz : z.Sorts exceptionalIn S) (hz' : z'.Sorts exceptionalIn T)
    (hS : ∀ s ∈ S, s.ReservedFree) (hT : ∀ t ∈ T, t.ReservedFree)
    (h : ∀ s ∈ S, ∃ t ∈ T, s.Agrees Set.univ t) (hs : s ∈ S) (ht : t ∈ T)
    (hagree : s.Agrees Set.univ t) {r r' : Rank}
    (hr : z.rankOf? s = some r) (hr' : z'.rankOf? t = some r') : r ≤ r' := by
  refine hz.rank_le_of_survives hz' exceptionalIn_subset exceptionalIn_subset
    hs ht ?_ hr hr'
  intro i hlevel
  exact mem_exceptionalLevel_of_agrees hS hT h i ht hagree hlevel

/-! ## §4. Whole bases. -/

/-- **Only meaning matters for ranking.**  Reserved-free bases that are
counterparts under the valuations of an alphabet have equal ranked models over
it.  If they are counterparts under all assignments, and the atoms of each fit
an alphabet, then both are stratified, and conditionals of the two that agree
have the same rank. -/
theorem ranks_depend_on_meaning {kb kb' : KnowledgeBase}
    (hres : kb.ReservedFree) (hres' : kb'.ReservedFree) :
    (∀ α : Alphabet, Counterparts α.assignments kb.toSet kb'.toSet →
      ∃ m m', kb.minimalModel (some α) = .ok m ∧
        kb'.minimalModel (some α) = .ok m' ∧ m.value = m'.value) ∧
    (Counterparts Set.univ kb.toSet kb'.toSet →
      kb.atoms.size ≤ maxAlphabetSize → kb'.atoms.size ≤ maxAlphabetSize →
      ∃ t t', kb.stratify = .ok t ∧ kb'.stratify = .ok t' ∧
        ∀ s ∈ kb, ∀ s' ∈ kb', s.Agrees Set.univ s' →
          ∃ r, t.value.rankOf? s = some r ∧
            t'.value.rankOf? s' = some r) := by
  constructor
  · intro α h
    exact ⟨kb.rankOver α, kb'.rankOver α,
      KnowledgeBase.minimalModel_some kb α,
      KnowledgeBase.minimalModel_some kb' α,
      KnowledgeBase.rankOver_eq_of_counterparts hres hres' h⟩
  · intro h hsize hsize'
    obtain ⟨t, ht, hz⟩ := KnowledgeBase.exists_stratify_eq_ok hres hsize
    obtain ⟨t', ht', hz'⟩ := KnowledgeBase.exists_stratify_eq_ok hres' hsize'
    refine ⟨t, t', ht, ht', ?_⟩
    intro s hs s' hs' hagree
    obtain ⟨r, hr⟩ := hz.exists_rankOf?_eq exceptionalIn_subset hs
    obtain ⟨r', hr'⟩ := hz'.exists_rankOf?_eq exceptionalIn_subset hs'
    have hle : r ≤ r' := hz.rank_le_of_agrees hz' hres hres' h.exists_right
      hs hs' hagree hr hr'
    have hge : r' ≤ r := hz'.rank_le_of_agrees hz hres' hres
      h.symm.exists_right hs' hs hagree.symm hr' hr
    exact ⟨r, hr, le_antisymm hle hge ▸ hr'⟩

/-- The penguins, with their strict rule written twice and each time without
`⊥`: its consequent is a contradiction, once in an atom of the penguins and
once in a foreign one. -/
def looseBirds : KnowledgeBase :=
  let bird := Operand.literal (.positive ⟨"b"⟩)
  let flies := Operand.literal (.positive ⟨"f"⟩)
  let penguin := Operand.literal (.positive ⟨"p"⟩)
  let whale := Operand.literal (.positive ⟨"w"⟩)
  .ofList [.normally bird flies,
    .normally (.formula (.conj bird penguin)) (.formula (.neg flies)),
    .looseClassical (.formula (.imp penguin bird)) bird,
    .looseClassical (.formula (.imp penguin bird)) whale]

theorem ranks_depend_on_meaning_of_penguins :
    penguins.ReservedFree ∧ looseBirds.ReservedFree ∧
      penguins.size ≠ looseBirds.size ∧ penguins.atoms ≠ looseBirds.atoms ∧
      Counterparts Set.univ penguins.toSet looseBirds.toSet ∧
      (∃ m m', penguins.minimalModel (some birdAlphabet) = .ok m ∧
        looseBirds.minimalModel (some birdAlphabet) = .ok m' ∧
        m.value = m'.value) ∧
      ∃ t t', penguins.stratify = .ok t ∧ looseBirds.stratify = .ok t' ∧
        ∀ s ∈ penguins, ∀ s' ∈ looseBirds, s.Agrees Set.univ s' →
          ∃ r, t.value.rankOf? s = some r ∧
            t'.value.rankOf? s' = some r := by
  have hres : penguins.ReservedFree := by decide
  have hres' : looseBirds.ReservedFree := by decide
  have hcounter : Counterparts Set.univ penguins.toSet looseBirds.toSet := by
    constructor
    · intro s hs
      simp only [penguins, SortedSet.mem_toSet, SortedSet.mem_ofList,
        List.mem_cons, List.not_mem_nil, or_false] at hs
      rcases hs with rfl | rfl | rfl
      · exact ⟨_, by simp [looseBirds], .refl _ _⟩
      · exact ⟨_, by simp [looseBirds], .refl _ _⟩
      · exact ⟨.looseClassical _ (.literal (.positive ⟨"b"⟩)),
          by simp [looseBirds],
          Conditional.classical_agrees_loose (by decide)⟩
    · intro s hs
      simp only [looseBirds, SortedSet.mem_toSet, SortedSet.mem_ofList,
        List.mem_cons, List.not_mem_nil, or_false] at hs
      rcases hs with rfl | rfl | rfl | rfl
      · exact ⟨_, by simp [penguins], .refl _ _⟩
      · exact ⟨_, by simp [penguins], .refl _ _⟩
      · exact ⟨.classical _, by simp [penguins],
          Conditional.classical_agrees_loose (by decide)⟩
      · exact ⟨.classical _, by simp [penguins],
          Conditional.classical_agrees_loose (by decide)⟩
  obtain ⟨hmodels, hstrata⟩ := ranks_depend_on_meaning hres hres'
  exact ⟨hres, hres', by decide, by decide, hcounter,
    hmodels birdAlphabet (hcounter.mono (Set.subset_univ _)),
    hstrata hcounter (by decide) (by decide)⟩

end SystemZ
