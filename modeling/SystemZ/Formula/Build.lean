/-
  SystemZ.Formula.Build
  ─────────────────────
  **BUILDING FORMULAS: NEGATION, CONNECTIVES, AND PART BY PART.**

  Negation is pushed through conjunctions and disjunctions down to the
  literals.  An implication `X → ⊥` is negated to `X`, and any other
  implication `F` to `F → ⊥`.

  Conjunction and disjunction simplify a constant that stands alone as the
  left operand; a constant anywhere else stays.  All three connectives lift
  both operands to formulas first.

  `ofParts` puts a root together from its parts: connective and right child
  must come together, and no literal may use a reserved symbol.
-/
import SystemZ.Formula.Order

namespace SystemZ

/-! ## §1. Negation. -/

mutual

/-- The negation of an operand, of the same kind. -/
def Operand.negate : Operand → Operand
  | .literal l => .literal l.negate
  | .formula f => .formula f.negate

/-- The negation of a formula. -/
def Formula.negate : Formula → Formula
  | .single x => .single x.negate
  | .node x .and r => .node x.negate .or r.negate
  | .node x .or r => .node x.negate .and r.negate
  | .node x .implies r =>
      if r.isBot then x.toFormula
      else .node (.formula (.node x .implies r)) .implies .bot

end

/-! ## §2. The connectives on operands. -/

namespace Formula

/-- The conjunction of two operands: `⊤ ∧ y` is `y`, and `⊥ ∧ y` is `⊥`. -/
def conj : Operand → Operand → Formula
  | .literal .top, y => y.toFormula
  | .literal .bot, _ => bot
  | x, y => node (.formula x.toFormula) .and y.toFormula

/-- The disjunction of two operands: `⊤ ∨ y` is `⊤`, and `⊥ ∨ y` is `y`. -/
def disj : Operand → Operand → Formula
  | .literal .top, _ => top
  | .literal .bot, y => y.toFormula
  | x, y => node (.formula x.toFormula) .or y.toFormula

/-- The implication from one operand to another. -/
def imp (x y : Operand) : Formula :=
  node (.formula x.toFormula) .implies y.toFormula

/-- The negation of an operand, as a formula. -/
def neg (x : Operand) : Formula := x.toFormula.negate

end Formula

/-! ## §3. Part by part. -/

/-- Why parts do not make a formula. -/
inductive FormulaError where
  /-- A connective without a right child. -/
  | missingRight
  /-- A right child without a connective. -/
  | missingConnective
  /-- A literal that uses a reserved symbol as an ordinary atom. -/
  | reservedLiteral (l : Literal)
  deriving DecidableEq

namespace FormulaError

/-- The wording of an error. -/
def message : FormulaError → String
  | missingRight =>
      "malformed formula: connective present, despite right child missing"
  | missingConnective =>
      "malformed formula: connective missing, despite right child present"
  | reservedLiteral l =>
      "invalid operand: literal \"" ++ l.text ++ "\" uses a reserved symbol"

end FormulaError

namespace Formula

/-- The least literal of a formula that uses a reserved symbol. -/
def reservedLiteral? (f : Formula) : Option Literal :=
  f.literals.toList.find? Literal.isReserved

/-- The tree with given parts; the right operand is lifted to a formula. -/
def assemble : Operand → Option Connective → Option Operand →
    Except FormulaError Formula
  | x, none, none => .ok (single x)
  | x, some c, some y => .ok (node x c y.toFormula)
  | _, some _, none => .error .missingRight
  | _, none, some _ => .error .missingConnective

/-- **The formula with given parts.**  The shape is checked first, then the
literals; of several that use a reserved symbol the least is reported. -/
def ofParts (x : Operand) (c : Option Connective) (y : Option Operand) :
    Except FormulaError Formula :=
  match assemble x c y with
  | .error e => .error e
  | .ok f =>
      match f.reservedLiteral? with
      | some l => .error (.reservedLiteral l)
      | none => .ok f

end Formula

end SystemZ
