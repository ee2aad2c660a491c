/-
  SystemZ.Proofs.Monotonicity
  ───────────────────────────
  **MORE CONDITIONALS MAKE NOTHING MORE NORMAL.**

  Conditionals: a larger base refutes more antecedents, so each level of
  exceptionality contains the same level of a smaller base, also above the
  last stratum of either.  Who survives longer has the greater rank.

  Valuations: more conditionals push a valuation up, and they push up the low
  valuations that excused another one, so two climbs cannot be compared level
  by level with what lies on each.  But the model of the larger base is a
  ranking that satisfies the smaller base, and the model of the smaller one is
  the least of these.

  Main results:
    `exceptionalLevel_mono`            levels grow with the base
    `SatisfiedBy.anti`                 fewer conditionals are easier to satisfy
    `worldRank_mono`                   the climb ranks no valuation lower
    `rankOf_le_of_more_conditionals`
    `minimalModel_le_of_more_conditionals`
-/
import SystemZ.Proofs.Agreement
import SystemZ.Proofs.LeastRanking

namespace SystemZ

/-! ## §1. Conditionals. -/

/-- **Levels of exceptionality grow with the base.** -/
theorem exceptionalLevel_mono {base base' : Set Conditional}
    (hsub : base ⊆ base') (i : Nat) :
    exceptionalLevel base i ⊆ exceptionalLevel base' i := by
  induction i with
  | zero => exact hsub
  | succ i ih =>
      rw [exceptionalLevel_succ, exceptionalLevel_succ]
      exact exceptionalIn_mono ih

/-- **More conditionals make no conditional more normal.**  If the larger base
is reserved-free and its atoms fit an alphabet, both bases are stratified, and
a conditional of the smaller one has no greater rank there than in the larger
one. -/
theorem rankOf_le_of_more_conditionals {kb kb' : KnowledgeBase}
    (hsub : kb.toSet ⊆ kb'.toSet) (hres : kb'.ReservedFree)
    (hsize : kb'.atoms.size ≤ maxAlphabetSize) :
    ∃ t t', kb.stratify = .ok t ∧ kb'.stratify = .ok t' ∧
      ∀ s ∈ kb, ∃ r r', t.value.rankOf? s = some r ∧
        t'.value.rankOf? s = some r' ∧ r ≤ r' := by
  -- What is asked of the larger base holds of the smaller one.
  have hfree : kb.ReservedFree := fun s hs => hres s (hsub hs)
  have hatoms : kb.atoms.size ≤ kb'.atoms.size :=
    SortedSet.size_le_of_subset fun _ => KnowledgeBase.mem_atoms_of_subset hsub
  obtain ⟨t, ht, hz⟩ :=
    KnowledgeBase.exists_stratify_eq_ok hfree (Nat.le_trans hatoms hsize)
  obtain ⟨t', ht', hz'⟩ := KnowledgeBase.exists_stratify_eq_ok hres hsize
  refine ⟨t, t', ht, ht', ?_⟩
  intro s hs
  obtain ⟨r, hr⟩ := hz.exists_rankOf?_eq exceptionalIn_subset hs
  obtain ⟨r', hr'⟩ := hz'.exists_rankOf?_eq exceptionalIn_subset (hsub hs)
  refine ⟨r, r', hr, hr', ?_⟩
  exact hz.rank_le_of_survives hz' exceptionalIn_subset exceptionalIn_subset
    hs (hsub hs) (fun i hlevel => exceptionalLevel_mono hsub i hlevel) hr hr'

/-- The penguins without the conditional that birds fly; a bird that is a
penguin is not exceptional here. -/
def flightlessBirds : KnowledgeBase :=
  let bird := Operand.literal (.positive ⟨"b"⟩)
  let flies := Operand.literal (.positive ⟨"f"⟩)
  let penguin := Operand.literal (.positive ⟨"p"⟩)
  .ofList [.normally (.formula (.conj bird penguin)) (.formula (.neg flies)),
    .classical (.formula (.imp penguin bird))]

theorem rankOf_le_with_flying_birds :
    flightlessBirds.toSet ⊆ penguins.toSet ∧ flightlessBirds ≠ penguins ∧
      penguins.ReservedFree ∧ penguins.atoms.size ≤ maxAlphabetSize ∧
      ∃ t t', flightlessBirds.stratify = .ok t ∧ penguins.stratify = .ok t' ∧
        ∀ s ∈ flightlessBirds, ∃ r r', t.value.rankOf? s = some r ∧
          t'.value.rankOf? s = some r' ∧ r ≤ r' := by
  have hsub : flightlessBirds.toSet ⊆ penguins.toSet :=
    SortedSet.subset_iff.mp (by decide)
  have hres : penguins.ReservedFree := by decide
  have hsize : penguins.atoms.size ≤ maxAlphabetSize := by decide
  exact ⟨hsub, by decide, hres, hsize,
    rankOf_le_of_more_conditionals hsub hres hsize⟩

/-! ## §2. Valuations. -/

namespace KnowledgeBase

variable {kb kb' : KnowledgeBase} {α : Alphabet} {v : Valuation}

/-- A ranking that satisfies a base satisfies every part of it. -/
theorem SatisfiedBy.anti {ρ : Valuation → Rank} (hsub : kb.toSet ⊆ kb'.toSet)
    (hρ : kb'.SatisfiedBy α ρ) : kb.SatisfiedBy α ρ :=
  fun s hs => hρ s (hsub hs)

/-- **The climb over the larger base ranks no valuation lower.** -/
theorem worldRank_mono (hsub : kb.toSet ⊆ kb'.toSet) (hv : v.alphabet = α) :
    kb.worldRank α v ≤ kb'.worldRank α v := by
  have hpart : kb.SatisfiedBy α (kb'.worldRank α) :=
    satisfiedBy_worldRank.anti hsub
  exact worldRank_le_of_satisfiedBy hpart hv

end KnowledgeBase

/-- **More conditionals make no valuation more normal**: over any alphabet, and
for any bases of which one is part of the other, the model of the part ranks
every valuation at most as high as the model of the whole. -/
theorem minimalModel_le_of_more_conditionals {kb kb' : KnowledgeBase}
    (hsub : kb.toSet ⊆ kb'.toSet) (α : Alphabet) :
    ∃ m m', kb.minimalModel (some α) = .ok m ∧
      kb'.minimalModel (some α) = .ok m' ∧
      ∀ v : Valuation, v.alphabet = α → ∃ r r', m.value.rank? v = some r ∧
        m'.value.rank? v = some r' ∧ r ≤ r' := by
  refine ⟨kb.rankOver α, kb'.rankOver α, kb.minimalModel_some α,
    kb'.minimalModel_some α, ?_⟩
  intro v hv
  exact ⟨kb.worldRank α v, kb'.worldRank α v,
    KnowledgeBase.rank?_rankOver hv, KnowledgeBase.rank?_rankOver hv,
    KnowledgeBase.worldRank_mono hsub hv⟩

theorem minimalModel_le_with_flying_birds :
    flightlessBirds.toSet ⊆ penguins.toSet ∧ flightlessBirds ≠ penguins ∧
      ∃ m m', flightlessBirds.minimalModel (some birdAlphabet) = .ok m ∧
        penguins.minimalModel (some birdAlphabet) = .ok m' ∧
        ∀ v : Valuation, v.alphabet = birdAlphabet →
          ∃ r r', m.value.rank? v = some r ∧ m'.value.rank? v = some r' ∧
            r ≤ r' := by
  have hsub : flightlessBirds.toSet ⊆ penguins.toSet :=
    SortedSet.subset_iff.mp (by decide)
  exact ⟨hsub, by decide, minimalModel_le_of_more_conditionals hsub _⟩

end SystemZ
