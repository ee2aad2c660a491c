/-
  SystemZ.Report.RankedModel
  ──────────────────────────
  **A RANKED MODEL AS A TABLE.**

  The ranks in use come in decreasing order, the infinite one first.  Each has
  a header line and then one line per valuation: its true atoms and its false
  atoms, each group in braces and wide enough for the whole alphabet.

  The table is a list of lines.  It is printed in smaller steps, rank by rank
  and, within a rank, valuation by valuation: the indentation of a line, and
  then the groups.
-/
import SystemZ.RankedModel
import SystemZ.Report.Stratification

namespace SystemZ

namespace RankedModel

/-! ## §1. The table. -/

/-- The width of the labels: that of the greatest finite rank's. -/
def labelWidth (m : RankedModel) : Nat :=
  (toString (m.maxFinite?.getD 0)).length + 1

/-- The width of a group of atoms: that of the whole alphabet with blanks
between its symbols. -/
def groupWidth (α : Alphabet) : Nat :=
  α.atoms.toList.foldr (fun a width => a.symbol.length + 1 + width) 0 - 1

/-- The ranks from the infinite one, if it is in use, down to 0. -/
def ranksInUse (m : RankedModel) : List Rank :=
  (if m.hasInfinite then [.infinite] else []) ++
    match m.maxFinite? with
    | none => []
    | some top => (List.range (top + 1)).reverse.map .finite

/-- The header line of a rank. -/
def header (m : RankedModel) (r : Rank) : String :=
  alignRight m.labelWidth r.label ++ " --------\n"

/-- The line of a valuation. -/
def line (m : RankedModel) (v : Valuation) : String :=
  let width := groupWidth m.alphabet
  blanks (m.labelWidth + 2) ++ "\x7b " ++
    alignLeft width (Valuation.symbolsText v.trueAtoms) ++ " \x7d \x7b " ++
    alignLeft width (Valuation.symbolsText v.falseAtoms) ++ " \x7d\n"

/-- The lines of the table. -/
def lines (m : RankedModel) : List String :=
  m.ranksInUse.flatMap fun r =>
    m.header r :: (m.valuationsOfRank r).map m.line

/-- The table as one text. -/
def table (m : RankedModel) : String := String.join m.lines

/-- Writes the table to a device. -/
def writeTo {σ ε : Type} [Device σ ε] (m : RankedModel) (s : σ) :
    σ × Except (ReportError ε) Unit :=
  writePieces "while writing a ranked model" s m.lines

/-! ## §2. Printing. -/

/-- The two groups of a valuation. -/
def groups (α : Alphabet) (v : Valuation) : String :=
  let width := groupWidth α
  "\x7b " ++ alignLeft width (Valuation.symbolsText v.trueAtoms) ++
    " \x7d \x7b " ++
    alignLeft width (Valuation.symbolsText v.falseAtoms) ++ " \x7d\n"

/-- The texts that are printed, in order. -/
def pieces (m : RankedModel) : List String :=
  m.ranksInUse.flatMap fun r => m.header r ::
    (m.valuationsOfRank r).flatMap fun v =>
      [blanks (m.labelWidth + 2), groups m.alphabet v]

section Printing

variable {σ ε : Type} [Device σ ε]

/-- Prints the groups of a valuation. -/
def printGroups (cut : String → List String) (v : Valuation) (α : Alphabet) :
    Emission σ ε Unit :=
  Emission.print cut (groups α v)

/-- **Prints the table**, rank by rank and valuation by valuation, each text
in the pieces that it is cut into. -/
def print (cut : String → List String) (m : RankedModel) :
    Emission σ (ReportError ε) Unit :=
  let context := "while writing a ranked model"
  forM m.ranksInUse fun r => do
    Emission.withContext context (Emission.print cut (m.header r))
    Emission.withContext context <|
      forM (m.valuationsOfRank r) fun v => do
        Emission.print cut (blanks (m.labelWidth + 2))
        printGroups cut v m.alphabet

end Printing

end RankedModel

end SystemZ
