/-
  SystemZ.Formula.Text
  ────────────────────
  **THE PRINTED FORM OF FORMULAS.**

  A compound child stands in parentheses, a child without connective does
  not, and `F → ⊥` is printed `¬(F)`, with its own pair of parentheses
  whatever `F` is.
-/
import SystemZ.Formula.Basic

namespace SystemZ

/-- The sign of a connective. -/
def Connective.text : Connective → String
  | and => "∧"
  | or => "∨"
  | implies => "→"

/-- The text in parentheses if asked for. -/
def parenthesize (needed : Bool) (text : String) : String :=
  if needed then "(" ++ text ++ ")" else text

mutual

/-- The printed form of an operand without parentheses around it. -/
def Operand.bareText : Operand → String
  | .literal l => l.text
  | .formula f => f.text

/-- The printed form of a formula. -/
def Formula.text : Formula → String
  | .single x => parenthesize x.isCompound x.bareText
  | .node x c r =>
      if (Formula.node x c r).isExceptional then "¬(" ++ x.bareText ++ ")"
      else
        parenthesize x.isCompound x.bareText ++ " " ++ c.text ++ " " ++
          parenthesize r.isCompound r.text

end

/-- The printed form of an operand: parentheses around a compound formula. -/
def Operand.text (x : Operand) : String :=
  parenthesize x.isCompound x.bareText

end SystemZ
