/-
  SystemZ.RankedModel
  ───────────────────
  **VALUATIONS RANKED BY NORMALITY.**

  The construction climbs a ladder of levels.  At each level there are the
  valuations that have no rank yet and the rules that are still PENDING: those
  whose antecedent no valuation below this level makes true.  A valuation that
  obeys the strict reading of every pending rule settles at the level; one
  that violates a pending rule goes on.  Rules whose antecedent a settled
  valuation makes true are pending no longer, so fewer are left to be violated
  further up.  A level where nothing settles is the last, and the valuations
  still there have infinite rank.

  So the rank of a valuation is the first level whose pending rules it obeys.

  The minimal model itself is defined for every alphabet.  To compute it takes
  a list of all valuations, which is set aside before the first of them is
  ranked, and a list cannot be of any length: for more than 57 atoms there is
  none.  Otherwise memory is taken to be unlimited.

  Main results:
    `tabulateModel_eq`  what is computed is the minimal model, where it fits
    `fitsList_iff`      it fits up to 57 atoms
-/
import SystemZ.Consequence
import SystemZ.KnowledgeBase
import SystemZ.Rank
import SystemZ.Trace

namespace SystemZ

/-! ## §1. Ranked models. -/

/-- A rank for each valuation of an alphabet. -/
structure RankedModel where
  alphabet : Alphabet
  /-- The rank of each valuation, at its number in the enumeration. -/
  ranks : Array Rank
  size_ranks : ranks.size = 1 <<< alphabet.size
  deriving DecidableEq

namespace RankedModel

/-- The number of ranked valuations. -/
def size (m : RankedModel) : Nat := m.ranks.size

/-- Whether no valuation is ranked; the empty alphabet has one, so there
always is one. -/
def isEmpty (m : RankedModel) : Bool := m.ranks.isEmpty

/-- The rank of a valuation; one of another alphabet has none. -/
def rank? (m : RankedModel) (v : Valuation) : Option Rank :=
  if v.alphabet = m.alphabet then m.ranks[v.trueBits.toNat]? else none

/-- The valuations in increasing order, with their ranks. -/
def entries (m : RankedModel) : List (Valuation × Rank) :=
  (m.alphabet.valuations true).rest.zip m.ranks.toList

/-- The valuations of a rank in increasing order. -/
def valuationsOfRank (m : RankedModel) (r : Rank) : List Valuation :=
  (m.entries.filter fun e => e.2 == r).map Prod.fst

/-- The greatest finite rank that a valuation has. -/
def maxFinite? (m : RankedModel) : Option Nat :=
  (m.ranks.toList.filterMap Rank.finite?).max?

/-- Whether a valuation has infinite rank. -/
def hasInfinite (m : RankedModel) : Bool := m.ranks.contains .infinite

/-- Whether no valuation of a lower rank makes `antecedent` true.  A valuation
without a rank is never minimal. -/
def isMinimal (m : RankedModel) (antecedent : Formula) (v : Valuation) :
    Bool :=
  match m.rank? v with
  | none => false
  | some r => m.entries.all fun e =>
      !(compare e.2 r == .lt && e.1.satisfies antecedent)

/-- Whether a valuation violates a conditional: it falsifies the strict
reading, and no more normal valuation meets the antecedent. -/
def violates (m : RankedModel) (s : Conditional) (v : Valuation) : Bool :=
  m.isMinimal s.antecedent v && !v.satisfies s.materialize

end RankedModel

/-! ## §2. The ladder. -/

namespace Ladder

/-- A conditional as the construction uses it. -/
structure Rule where
  antecedent : Formula
  /-- The strict reading. -/
  strict : Formula

/-- A level: its pending rules, and the number of its unranked valuations
that violate one. -/
structure Level where
  pending : List Rule
  violating : Nat

/-- The rules of a knowledge base. -/
def rules (kb : KnowledgeBase) : List Rule :=
  kb.toList.map fun s => ⟨s.antecedent, s.materialize⟩

/-- Whether a valuation makes the strict readings of all rules true. -/
def obeys (pending : List Rule) (v : Valuation) : Bool :=
  pending.all fun r => v.satisfies r.strict

/-- The rules whose antecedent no valuation of a list makes true. -/
def stillPending (pending : List Rule) (settled : List Valuation) :
    List Rule :=
  pending.filter fun r => !settled.any fun v => v.satisfies r.antecedent

/-- The valuations that settle where some rules are pending, and those that
violate one of the rules. -/
def settle (pending : List Rule) (unranked : List Valuation) :
    List Valuation × List Valuation :=
  unranked.partition (obeys pending)

theorem settle_eq (pending : List Rule) (unranked : List Valuation) :
    settle pending unranked =
      (unranked.filter (obeys pending),
        unranked.filter fun v => !obeys pending v) :=
  List.partition_eq_filter_filter

/-- Where a valuation settles, fewer go on. -/
theorem length_violating_lt {pending : List Rule}
    {unranked settled violating : List Valuation} {v : Valuation}
    (h : settle pending unranked = (v :: settled, violating)) :
    violating.length < unranked.length := by
  rw [settle_eq, Prod.mk.injEq] at h
  obtain ⟨hmem, hobeys⟩ :=
    List.mem_filter.mp (h.1 ▸ List.mem_cons_self : v ∈ _)
  rw [← h.2, List.length_filter_lt_length_iff_exists]
  exact ⟨v, hmem, by simp [hobeys]⟩

/-- The levels from one with the given pending rules and unranked valuations
on; the last is the first where no valuation settles. -/
def climb (pending : List Rule) (unranked : List Valuation) : List Level :=
  match _h : settle pending unranked with
  | ([], violating) => [⟨pending, violating.length⟩]
  | (v :: settled, violating) =>
      ⟨pending, violating.length⟩ ::
        climb (stillPending pending (v :: settled)) violating
termination_by unranked.length
decreasing_by exact length_violating_lt _h

/-- The rank of a valuation: the first level whose pending rules it obeys. -/
def rankOn (levels : List Level) (v : Valuation) : Rank :=
  match levels.findIdx? fun l => obeys l.pending v with
  | some i => .finite i
  | none => .infinite

end Ladder

/-! ## §3. The model of a knowledge base. -/

/-- **The minimal ranked model of a knowledge base over an alphabet.** -/
def KnowledgeBase.rankOver (kb : KnowledgeBase) (α : Alphabet) :
    Traced RankedModel :=
  let worlds := (α.valuations true).rest
  let levels := Ladder.climb (Ladder.rules kb) worlds
  let model : RankedModel :=
    { alphabet := α
      ranks := (worlds.map (Ladder.rankOn levels)).toArray
      size_ranks := by
        simp [worlds, Valuations.length_rest_valuations] }
  { value := model
    trace :=
      levels.zipIdx.map (fun x => .worldLevel x.2 x.1.violating) ++
        [.worldsRanked model.size model.maxFinite?
          (model.valuationsOfRank .infinite).length] }

/-- The minimal ranked model over a given alphabet, or else over the atoms of
the knowledge base, whatever memory that takes. -/
def KnowledgeBase.minimalModel (kb : KnowledgeBase)
    (alphabet : Option Alphabet) :
    Except AlphabetError (Traced RankedModel) :=
  match alphabet with
  | some α => .ok (kb.rankOver α)
  | none =>
      match kb.alphabet with
      | .error e => .error e
      | .ok α => .ok (kb.rankOver α)

namespace KnowledgeBase

variable {kb : KnowledgeBase}

theorem minimalModel_some (kb : KnowledgeBase) (α : Alphabet) :
    kb.minimalModel (some α) = .ok (kb.rankOver α) := rfl

/-- The atoms of a base make an alphabet unless they are too many. -/
theorem minimalModel_none_of_le (h : kb.atoms.size ≤ maxAlphabetSize) :
    kb.minimalModel none = .ok (kb.rankOver ⟨kb.atoms, h⟩) := by
  rw [minimalModel, alphabet, Alphabet.ofSet, dif_pos h]

theorem minimalModel_none_of_lt (h : maxAlphabetSize < kb.atoms.size) :
    kb.minimalModel none = .error (.tooManyAtoms kb.atoms.size) := by
  rw [minimalModel, alphabet, Alphabet.ofSet, dif_neg (Nat.not_le.mpr h)]

/-- A model of a base is one over some alphabet. -/
theorem exists_rankOver_eq {given : Option Alphabet} {t : Traced RankedModel}
    (h : kb.minimalModel given = .ok t) : ∃ α, t = kb.rankOver α := by
  cases given with
  | some α => exact ⟨α, (Except.ok.inj h).symm⟩
  | none =>
      unfold minimalModel at h
      cases hα : kb.alphabet with
      | error e =>
          rw [hα] at h
          cases h
      | ok α =>
          rw [hα] at h
          exact ⟨α, (Except.ok.inj h).symm⟩

end KnowledgeBase

/-! ## §4. The model as a list. -/

/-- What can go wrong when a ranked model is computed. -/
inductive ModelError where
  /-- There is no alphabet. -/
  | alphabet (e : AlphabetError)
  /-- No list can hold the valuations. -/
  | capacityOverflow
  deriving DecidableEq

/-- The wording of an error. -/
def ModelError.message : ModelError → String
  | alphabet e => e.message
  | capacityOverflow => "capacity overflow"

/-- The bytes of a valuation in a list: two masks, and the place and the size
of its alphabet, 8 bytes each. -/
def Valuation.byteSize : Nat := 4 * 8

/-- The most bytes that a list can have; they are counted by signed words. -/
def maxListBytes : Nat := 1 <<< 63 - 1

/-- Whether a list can hold all valuations of an alphabet. -/
def Alphabet.fitsList (α : Alphabet) : Bool :=
  α.valuationCount.toNat * Valuation.byteSize ≤ maxListBytes

/-- **Computes the minimal ranked model**, over a given alphabet or else over
the atoms of the knowledge base, after setting aside a list of all
valuations. -/
def KnowledgeBase.tabulateModel (kb : KnowledgeBase)
    (alphabet : Option Alphabet) : Except ModelError (Traced RankedModel) :=
  match alphabet.elim kb.alphabet .ok with
  | .error e => .error (.alphabet e)
  | .ok α =>
      if α.fitsList then .ok (kb.rankOver α) else .error .capacityOverflow

/-- **What is computed is the minimal model**, where it fits. -/
theorem KnowledgeBase.tabulateModel_eq (kb : KnowledgeBase)
    (alphabet : Option Alphabet) :
    kb.tabulateModel alphabet =
      ((kb.minimalModel alphabet).mapError .alphabet).bind fun t =>
        if t.value.alphabet.fitsList then .ok t
        else .error .capacityOverflow := by
  cases alphabet with
  | some α => rfl
  | none =>
      rw [tabulateModel, minimalModel, Option.elim_none]
      cases kb.alphabet <;> rfl

/-- The largest size of an alphabet whose valuations a list can hold. -/
def maxListedSize : Nat := 57

/-- **A list can hold the valuations of up to 57 atoms.** -/
theorem Alphabet.fitsList_iff {α : Alphabet} :
    α.fitsList = true ↔ α.size ≤ maxListedSize := by
  have hbytes : Valuation.byteSize = 1 <<< 5 := rfl
  have hmost : maxListBytes = 1 <<< 63 - 1 := rfl
  rw [fitsList, decide_eq_true_iff, toNat_valuationCount, hbytes, hmost,
    Nat.shiftLeft_eq, Nat.shiftLeft_eq, Nat.shiftLeft_eq, Nat.one_mul,
    Nat.one_mul, Nat.one_mul, ← Nat.pow_add,
    Nat.le_sub_one_iff_lt (Nat.two_pow_pos 63),
    Nat.pow_lt_pow_iff_right (Nat.lt_succ_self 1), maxListedSize]
  omega

end SystemZ
