/-
  SystemZ.Report.Stratification
  ─────────────────────────────
  **A STRATIFICATION AS A TABLE.**

  One line per rank in use, in increasing order with the infinite rank last:
  the rank and a colon, aligned to the right, then the conditionals.
-/
import SystemZ.Report.Column
import SystemZ.Report.Sink
import SystemZ.Stratification

namespace SystemZ

/-- The label of a rank. -/
def Rank.label (r : Rank) : String := r.text ++ ":"

namespace Stratification

/-- The width of the labels: that of the greatest finite rank's. -/
def labelWidth (z : Stratification) : Nat :=
  (toString (z.finiteRanks - 1)).length + 1

/-- The line of a rank. -/
def line (z : Stratification) (r : Rank) (kb : KnowledgeBase) : String :=
  alignRight z.labelWidth r.label ++ " " ++ kb.text ++ "\n"

/-- The lines of the table. -/
def lines (z : Stratification) : List String :=
  z.toList.map fun x => z.line x.1 x.2

/-- The table as one text. -/
def table (z : Stratification) : String := String.join z.lines

/-- Writes the table to a device. -/
def writeTo {σ ε : Type} [Device σ ε] (z : Stratification) (s : σ) :
    σ × Except (ReportError ε) Unit :=
  writePieces "while writing a statement ranking" s z.lines

/-- **Prints the table**, rank by rank, each line in the pieces that it is cut
into. -/
def print {σ ε : Type} [Device σ ε] (cut : String → List String)
    (z : Stratification) : Emission σ (ReportError ε) Unit :=
  Emission.withContext "while writing a statement ranking" <|
    forM z.toList fun x => Emission.print cut (z.line x.1 x.2)

end Stratification

end SystemZ
