/-
  SystemZ.Consequence
  ───────────────────
  **MODELS, SATISFIABILITY, VALIDITY, ENTAILMENT.**

  All four questions go through one enumeration: the valuations of an
  alphabet, given or inferred from the formulas, in increasing order.  A
  search stops at the first valuation that settles it, so an answer over many
  atoms can be quick.

  Entailment is refutation: formulas entail a target when they and its
  negation have no common model.

  Main results:
    `Models.toList_eq`  the models, one by one
    `Models.take_eq`    stopping early gives the first of them
-/
import SystemZ.Valuation.Enumeration

namespace SystemZ

/-! ## §1. Models. -/

/-- The models of some formulas that are still to come. -/
structure Models where
  formulas : List Formula
  /-- The valuations that have not been tried. -/
  candidates : Valuations

namespace Models

/-- The next model and those behind it. -/
def next? (m : Models) : Option (Valuation × Models) :=
  match m.candidates.find? fun v => v.satisfiesAll m.formulas with
  | none => none
  | some (v, behind) => some (v, { m with candidates := behind })

/-- The first `k` models to come, or all of them if there are fewer. -/
def take (m : Models) : Nat → List Valuation
  | 0 => []
  | k + 1 =>
      match m.next? with
      | none => []
      | some (v, behind) => v :: behind.take k

/-- All models to come. -/
def toList (m : Models) : List Valuation :=
  m.candidates.rest.filter fun v => v.satisfiesAll m.formulas

/-- The models to come, one by one. -/
theorem toList_eq (m : Models) :
    m.toList = match m.next? with
      | none => []
      | some (v, behind) => v :: behind.toList := by
  rw [toList, Valuations.filter_rest, next?]
  cases m.candidates.find? fun v => v.satisfiesAll m.formulas <;> rfl

/-- **Taking models one by one gives the first of the list.** -/
theorem take_eq (m : Models) (k : Nat) : m.take k = m.toList.take k := by
  induction k generalizing m with
  | zero => rfl
  | succ k ih =>
      rw [take, toList_eq]
      cases m.next? with
      | none => rfl
      | some r => simp only [ih, List.take_succ_cons]

end Models

/-- The models of some formulas over an alphabet; without one, over the atoms
that occur in the formulas. -/
def models (fs : List Formula) (alphabet : Option Alphabet) :
    Except AlphabetError Models :=
  match Alphabet.orOfFormulas alphabet fs with
  | .error e => .error e
  | .ok α => .ok ⟨fs, α.valuations false⟩

/-! ## §2. Questions. -/

/-- Whether some valuation makes all formulas true. -/
def satisfiable (fs : List Formula) (alphabet : Option Alphabet) :
    Except AlphabetError Bool :=
  match models fs alphabet with
  | .error e => .error e
  | .ok m => .ok m.next?.isSome

/-- Whether no valuation makes all formulas true. -/
def unsatisfiable (fs : List Formula) (alphabet : Option Alphabet) :
    Except AlphabetError Bool :=
  match satisfiable fs alphabet with
  | .error e => .error e
  | .ok b => .ok !b

/-- Whether every valuation makes all formulas true. -/
def valid (fs : List Formula) (alphabet : Option Alphabet) :
    Except AlphabetError Bool :=
  match Alphabet.orOfFormulas alphabet fs with
  | .error e => .error e
  | .ok α => .ok ((α.valuations false).all fun v => v.satisfiesAll fs)

/-- **Whether some formulas entail a target.** -/
def entails (fs : List Formula) (target : Formula) :
    Except AlphabetError Bool :=
  unsatisfiable (fs ++ [target.negate]) none

end SystemZ
