/-
  SystemZ.Stratification
  ──────────────────────
  **CONDITIONALS SORTED BY EXCEPTIONALITY.**

  A conditional is exceptional for a knowledge base when the strict readings
  of the whole base refute its antecedent.  Starting from the whole base, the
  conditionals that are NOT exceptional form stratum 0; the exceptional ones
  are a smaller base, whose unexceptional ones form stratum 1; and so on,
  until all that remain are exceptional for each other.  Those are the
  residue, of infinite rank.

  Each round keeps a part of the base, and a round that keeps all of it is
  the last, so the construction ends.
-/
import SystemZ.Consequence
import SystemZ.KnowledgeBase
import SystemZ.Rank
import SystemZ.Trace

namespace SystemZ

/-- A knowledge base sorted by rank. -/
structure Stratification where
  /-- The conditionals of rank 0, of rank 1, and so on. -/
  strata : List KnowledgeBase
  /-- The conditionals of infinite rank. -/
  residue : KnowledgeBase
  deriving DecidableEq

namespace Stratification

/-! ## §1. Reading. -/

/-- The number of finite ranks in use. -/
def finiteRanks (z : Stratification) : Nat := z.strata.length

/-- The conditionals of a rank, if the rank is in use; the infinite one
always is. -/
def get? (z : Stratification) : Rank → Option KnowledgeBase
  | .finite i => z.strata[i]?
  | .infinite => some z.residue

/-- The rank of a conditional, if it has one. -/
def rankOf? (z : Stratification) (s : Conditional) : Option Rank :=
  match z.strata.findIdx? fun kb => kb.contains s with
  | some i => some (.finite i)
  | none => if z.residue.contains s then some .infinite else none

/-- The ranks in use with their conditionals, in increasing order. -/
def toList (z : Stratification) : List (Rank × KnowledgeBase) :=
  z.strata.zipIdx.map (fun x => (.finite x.2, x.1)) ++
    [(.infinite, z.residue)]

end Stratification

/-! ## §2. Construction. -/

namespace KnowledgeBase

/-- **The exceptional conditionals of a base**: those whose antecedent its
strict readings refute. -/
def exceptional (kb : KnowledgeBase) : Except AlphabetError KnowledgeBase :=
  let strict := kb.materialized.toList
  kb.tryFilter fun s => entails strict s.antecedent.negate

/-- A round that does not keep the whole base makes it smaller. -/
theorem size_exceptional_lt {kb rest : KnowledgeBase}
    (h : kb.exceptional = .ok rest) (hne : rest ≠ kb) :
    rest.size < kb.size :=
  Nat.lt_of_le_of_ne (SortedSet.size_tryFilter_le h) fun hsize =>
    hne (SortedSet.eq_of_tryFilter_of_size_le h (Nat.le_of_eq hsize.symm))

/-- The stratification of what is left at a level. -/
def stratifyFrom (level : Nat) (kb : KnowledgeBase) :
    Except AlphabetError (Traced Stratification) :=
  match _h : kb.exceptional with
  | .error e => .error e
  | .ok rest =>
      if _hfix : rest = kb then
        .ok ⟨⟨[], kb⟩,
          [.stratum level kb.size rest.size, .stratified level kb.size]⟩
      else
        match stratifyFrom (level + 1) rest with
        | .error e => .error e
        | .ok above =>
            .ok ⟨⟨kb.difference rest :: above.value.strata,
                above.value.residue⟩,
              .stratum level kb.size rest.size :: above.trace⟩
termination_by kb.size
decreasing_by exact size_exceptional_lt _h _hfix

/-- **The stratification of a knowledge base.** -/
def stratify (kb : KnowledgeBase) :
    Except AlphabetError (Traced Stratification) := kb.stratifyFrom 0

end KnowledgeBase

end SystemZ
