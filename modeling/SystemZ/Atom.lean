/-
  SystemZ.Atom
  ────────────
  **PROPOSITIONAL ATOMS.**

  An atom is its symbol, any text.  Atoms are ordered by their symbols, code
  point by code point.  The symbols `⊤` and `⊥` are reserved: they write the
  two constants, and `Literal.ofAtom` reads them so.
-/

namespace SystemZ

/-- A propositional atom, named by its symbol. -/
structure Atom where
  symbol : String
  deriving DecidableEq, Inhabited

namespace Atom

/-- The symbol that writes the constant true. -/
def topSymbol : String := "⊤"

/-- The symbol that writes the constant false. -/
def botSymbol : String := "⊥"

/-- Whether the symbol writes a constant. -/
def isReserved (a : Atom) : Bool :=
  a.symbol == topSymbol || a.symbol == botSymbol

instance : Ord Atom where
  compare a b := compare a.symbol b.symbol

theorem compare_def (a b : Atom) :
    compare a b = compare a.symbol b.symbol := rfl

instance : Std.TransOrd Atom where
  eq_swap {a b} := by
    rw [compare_def, compare_def]
    exact Std.OrientedOrd.eq_swap
  isLE_trans {a b c} := by
    rw [compare_def, compare_def, compare_def]
    exact Std.TransOrd.isLE_trans

instance : Std.LawfulEqOrd Atom where
  compare_self {a} := by
    rw [compare_def, Std.LawfulEqCmp.compare_eq_iff_eq]
  eq_of_compare {a b} h := by
    rw [compare_def, Std.LawfulEqCmp.compare_eq_iff_eq] at h
    cases a; cases b; cases h; rfl

end Atom

end SystemZ
