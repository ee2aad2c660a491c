/-
  SystemZ.Justification
  ─────────────────────
  **SMALLEST EXPLANATIONS OF A NEGATION.**

  Given strict conditionals and defeasible ones, a justification of `¬φ` is a
  set of defeasible conditionals whose strict readings, with those of the
  strict conditionals, entail `¬φ`.  Of all justifications those of the least
  size are listed: the candidates are tried by size, and the first size with a
  hit is the last one tried.
-/
import SystemZ.Consequence
import SystemZ.KnowledgeBase
import SystemZ.Trace

namespace SystemZ

namespace Justification

/-! ## §1. Candidates. -/

/-- The sublists of a list with `k` elements, those with earlier elements
first. -/
def choose {α : Type _} : Nat → List α → List (List α)
  | 0, _ => [[]]
  | _ + 1, [] => []
  | k + 1, a :: as => (choose k as).map (a :: ·) ++ choose (k + 1) as

/-- Whether some defeasible conditionals, with the strict formulas, entail a
target. -/
def refutes (strict : List Formula) (target : Formula)
    (candidate : List Conditional) : Except AlphabetError Bool :=
  entails (strict ++ candidate.map Conditional.materialize) target

/-! ## §2. The search. -/

/-- The candidates that pass a test, of the first size in a list of sizes
for which there are any, and that size. -/
def firstHits (test : List Conditional → Except AlphabetError Bool)
    (defeasible : List Conditional) :
    List Nat → Except AlphabetError (Option (Nat × List (List Conditional)))
  | [] => .ok none
  | k :: sizes =>
      match SortedSet.tryFilterList test (choose k defeasible) with
      | .error e => .error e
      | .ok [] => firstHits test defeasible sizes
      | .ok (hit :: hits) => .ok (some (k, hit :: hits))

end Justification

open Justification in
/-- **The justifications of `¬φ` of least size**; none if no set of defeasible
conditionals is one. -/
def justifications (strict defeasible : KnowledgeBase) (φ : Formula) :
    Except AlphabetError (Traced (SortedSet KnowledgeBase)) :=
  let test := refutes strict.materialized.toList φ.negate
  match firstHits test defeasible.toList
      (List.range (defeasible.size + 1)) with
  | .error e => .error e
  | .ok none =>
      .ok ⟨∅, [.justificationsFound 0 φ defeasible.size]⟩
  | .ok (some (k, hits)) =>
      let found := SortedSet.ofList (hits.map SortedSet.ofList)
      .ok ⟨found,
        [.justificationFound k,
          .justificationsFound found.size φ defeasible.size]⟩

end SystemZ
