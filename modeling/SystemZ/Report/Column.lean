/-
  SystemZ.Report.Column
  ─────────────────────
  **COLUMNS OF TEXT.**

  A text is brought to the width of its column with blanks, before it or
  behind it.  Widths count characters, and a text that is wider than its
  column is not cut.
-/

namespace SystemZ

/-- A text of blanks. -/
def blanks (n : Nat) : String := .ofList (List.replicate n ' ')

/-- The text at the right end of a column. -/
def alignRight (width : Nat) (text : String) : String :=
  blanks (width - text.length) ++ text

/-- The text at the left end of a column. -/
def alignLeft (width : Nat) (text : String) : String :=
  text ++ blanks (width - text.length)

@[simp] theorem length_blanks (n : Nat) : (blanks n).length = n := by
  simp [blanks]

/-- A text that fits its column fills it. -/
theorem length_alignRight {width : Nat} {text : String}
    (h : text.length ≤ width) : (alignRight width text).length = width := by
  rw [alignRight, String.length_append, length_blanks]
  omega

theorem length_alignLeft {width : Nat} {text : String}
    (h : text.length ≤ width) : (alignLeft width text).length = width := by
  rw [alignLeft, String.length_append, length_blanks]
  omega

end SystemZ
