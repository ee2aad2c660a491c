/-
  SystemZ.Conditional
  ───────────────────
  **CONDITIONALS: "IF THE ANTECEDENT, NORMALLY THE CONSEQUENT".**

  A conditional whose consequent is the formula `⊥` itself is classical: it
  says that its antecedent never happens.  That is how strict rules are kept,
  and `classical φ` is the conditional `¬φ |~ ⊥`.

  The strict reading of a conditional is a formula: the negated antecedent of
  a classical one, and otherwise the implication from antecedent to
  consequent.

  Main results:
    `holds_materialize`  both strict readings mean the implication
    the order is total, with `.eq` exactly on equal conditionals
-/
import SystemZ.Formula.Meaning
import SystemZ.Formula.Text

namespace SystemZ

/-- A conditional assertion. -/
structure Conditional where
  antecedent : Formula
  consequent : Formula
  deriving DecidableEq, Inhabited

namespace Conditional

/-! ## §1. Construction and parts. -/

/-- "If `x`, normally `y`", for operands. -/
def normally (x y : Operand) : Conditional := ⟨x.toFormula, y.toFormula⟩

/-- The strict rule that `x` holds without exception: `¬x |~ ⊥`. -/
def classical (x : Operand) : Conditional := ⟨Formula.neg x, .bot⟩

/-- Whether the conditional admits no exception: its consequent is `⊥`. -/
def isClassical (s : Conditional) : Bool := s.consequent.isBot

/-- **The strict reading.** -/
def materialize (s : Conditional) : Formula :=
  if s.isClassical then s.antecedent.negate
  else .imp (.formula s.antecedent) (.formula s.consequent)

/-- The literals of both sides, constants left out. -/
def literals (s : Conditional) : SortedSet Literal :=
  s.antecedent.literals.union s.consequent.literals

/-- The atoms of both sides. -/
def atoms (s : Conditional) : SortedSet Atom :=
  s.antecedent.atoms.union s.consequent.atoms

/-- The printed form: antecedent and consequent around `|~`.  A strict rule
whose antecedent is `F → ⊥` is printed as the formula `F` that it asserts. -/
def text (s : Conditional) : String :=
  if s.isClassical && s.antecedent.isExceptional then
    s.antecedent.left.toFormula.text
  else s.antecedent.text ++ " |~ " ++ s.consequent.text

/-! ## §2. Order. -/

/-- By antecedent, then by consequent. -/
instance : Ord Conditional where
  compare s t :=
    (compare s.antecedent t.antecedent).then
      (compare s.consequent t.consequent)

theorem compare_def (s t : Conditional) :
    compare s t = (compare s.antecedent t.antecedent).then
      (compare s.consequent t.consequent) := rfl

instance : Std.OrientedOrd Conditional where
  eq_swap {s t} := by
    rw [compare_def, compare_def, Ordering.swap_then,
      (Std.OrientedOrd.eq_swap : compare s.antecedent t.antecedent = _),
      (Std.OrientedOrd.eq_swap : compare s.consequent t.consequent = _)]

instance : Std.LawfulEqOrd Conditional where
  compare_self {s} := by
    rw [compare_def, Ordering.then_eq_eq]
    exact ⟨Std.ReflCmp.compare_self, Std.ReflCmp.compare_self⟩
  eq_of_compare {s t} h := by
    simp only [compare_def, Ordering.then_eq_eq,
      Std.LawfulEqCmp.compare_eq_iff_eq] at h
    cases s; cases t; obtain ⟨rfl, rfl⟩ := h; rfl

instance : Std.TransOrd Conditional :=
  transOrd_of_lt_trans fun _ _ _ =>
    then_lt_trans (fun _ _ => Std.LawfulEqCmp.compare_eq_iff_eq)
      Std.TransCmp.lt_trans Std.TransCmp.lt_trans

/-! ## §3. Meaning. -/

/-- No literal of either side uses a reserved symbol as an ordinary atom. -/
def ReservedFree (s : Conditional) : Prop :=
  s.antecedent.ReservedFree ∧ s.consequent.ReservedFree

instance (s : Conditional) : Decidable s.ReservedFree :=
  inferInstanceAs (Decidable (_ ∧ _))

/-- **The strict reading means the implication**, by either way to it. -/
theorem holds_materialize {value : Atom → Bool} {s : Conditional}
    (h : s.ReservedFree) :
    s.materialize.holds value =
      (!s.antecedent.holds value || s.consequent.holds value) := by
  unfold materialize
  split
  case isTrue hbot =>
    rw [Formula.holds_negate _ h.1, Formula.isBot_iff.mp hbot,
      Formula.holds_bot, Bool.or_false]
  case isFalse =>
    rw [Formula.holds_imp]
    rfl

end Conditional

end SystemZ
