/-
  SystemZ.Formula.Order
  ─────────────────────
  **THE ORDER OF OPERANDS AND FORMULAS.**

  Connectives are ordered conjunction, disjunction, implication.  A literal
  operand comes before a formula.  Formulas are compared by their left
  operands first; then a one-node formula comes before a compound one, and
  two compound ones are compared by connective and right child.

  Main results: the three orders are total, with `.eq` exactly on equal
  values (the `TransOrd` and `LawfulEqOrd` instances below).
-/
import SystemZ.Formula.Basic

namespace SystemZ

/-! ## §1. The comparisons. -/

namespace Connective

/-- Conjunction, disjunction, implication. -/
def index : Connective → Nat
  | and => 0
  | or => 1
  | implies => 2

instance : Ord Connective where
  compare c d := compare c.index d.index

instance : Std.OrientedOrd Connective where
  eq_swap {c d} := by cases c <;> cases d <;> rfl

instance : Std.LawfulEqOrd Connective where
  compare_self {c} := by cases c <;> rfl
  eq_of_compare {c d} := by cases c <;> cases d <;> decide

instance : Std.TransOrd Connective where
  isLE_trans {c d e} := by cases c <;> cases d <;> cases e <;> decide

end Connective

mutual

/-- Literals before formulas. -/
def Operand.cmp : Operand → Operand → Ordering
  | .literal k, .literal l => compare k l
  | .literal _, .formula _ => .lt
  | .formula _, .literal _ => .gt
  | .formula f, .formula g => f.cmp g

/-- By left operand, then one-node formulas first, then by connective and
right child. -/
def Formula.cmp : Formula → Formula → Ordering
  | .single x, .single y => (x.cmp y).then .eq
  | .single x, .node y _ _ => (x.cmp y).then .lt
  | .node x _ _, .single y => (x.cmp y).then .gt
  | .node x c r, .node y d s =>
      (x.cmp y).then ((compare c d).then (r.cmp s))

end

instance : Ord Operand := ⟨Operand.cmp⟩

instance : Ord Formula := ⟨Formula.cmp⟩

/-! ## §2. They are lawful. -/

mutual

theorem Operand.cmp_eq_iff : ∀ x y : Operand, x.cmp y = .eq ↔ x = y
  | .literal k, .literal l => by
      simp [Operand.cmp, Std.LawfulEqCmp.compare_eq_iff_eq]
  | .literal _, .formula _ => by simp [Operand.cmp]
  | .formula _, .literal _ => by simp [Operand.cmp]
  | .formula f, .formula g => by
      simp [Operand.cmp, Formula.cmp_eq_iff f g]

theorem Formula.cmp_eq_iff : ∀ f g : Formula, f.cmp g = .eq ↔ f = g
  | .single x, .single y => by
      simp [Formula.cmp, Operand.cmp_eq_iff x y]
  | .single _, .node _ _ _ => by simp [Formula.cmp, Ordering.then_eq_eq]
  | .node _ _ _, .single _ => by simp [Formula.cmp, Ordering.then_eq_eq]
  | .node x c r, .node y d s => by
      simp [Formula.cmp, Ordering.then_eq_eq, Operand.cmp_eq_iff x y,
        Formula.cmp_eq_iff r s, Std.LawfulEqCmp.compare_eq_iff_eq]

end

mutual

theorem Operand.cmp_swap : ∀ x y : Operand, x.cmp y = (y.cmp x).swap
  | .literal k, .literal l =>
      (Std.OrientedOrd.eq_swap : compare k l = (compare l k).swap)
  | .literal _, .formula _ => rfl
  | .formula _, .literal _ => rfl
  | .formula f, .formula g => Formula.cmp_swap f g

theorem Formula.cmp_swap : ∀ f g : Formula, f.cmp g = (g.cmp f).swap
  | .single x, .single y => by
      rw [Formula.cmp, Formula.cmp, Operand.cmp_swap x y, Ordering.swap_then]
      rfl
  | .single x, .node y _ _ => by
      rw [Formula.cmp, Formula.cmp, Operand.cmp_swap x y, Ordering.swap_then]
      rfl
  | .node x _ _, .single y => by
      rw [Formula.cmp, Formula.cmp, Operand.cmp_swap x y, Ordering.swap_then]
      rfl
  | .node x c r, .node y d s => by
      rw [Formula.cmp, Formula.cmp, Operand.cmp_swap x y, Formula.cmp_swap r s,
        (Std.OrientedOrd.eq_swap : compare c d = (compare d c).swap),
        Ordering.swap_then, Ordering.swap_then]

end

mutual

theorem Operand.cmp_lt_trans : ∀ x y z : Operand,
    x.cmp y = .lt → y.cmp z = .lt → x.cmp z = .lt
  | .literal k, .literal l, .literal m =>
      (Std.TransCmp.lt_trans :
        compare k l = .lt → compare l m = .lt → compare k m = .lt)
  | .formula f, .formula g, .formula h => Formula.cmp_lt_trans f g h
  | .literal _, .literal _, .formula _
  | .literal _, .formula _, .literal _
  | .literal _, .formula _, .formula _
  | .formula _, .literal _, .literal _
  | .formula _, .literal _, .formula _
  | .formula _, .formula _, .literal _ => by simp [Operand.cmp]

theorem Formula.cmp_lt_trans : ∀ f g h : Formula,
    f.cmp g = .lt → g.cmp h = .lt → f.cmp h = .lt
  | .node x c r, .node y d s, .node z e t =>
      then_lt_trans Operand.cmp_eq_iff (Operand.cmp_lt_trans x y z)
        (then_lt_trans (fun _ _ => Std.LawfulEqCmp.compare_eq_iff_eq)
          Std.TransCmp.lt_trans (Formula.cmp_lt_trans r s t))
  | .single x, .single y, .single z
  | .single x, .single y, .node z _ _
  | .single x, .node y _ _, .single z
  | .single x, .node y _ _, .node z _ _
  | .node x _ _, .single y, .single z
  | .node x _ _, .single y, .node z _ _
  | .node x _ _, .node y _ _, .single z =>
      then_lt_trans Operand.cmp_eq_iff (Operand.cmp_lt_trans x y z)
        (by simp)

end

instance : Std.OrientedOrd Operand := ⟨Operand.cmp_swap _ _⟩

instance : Std.LawfulEqOrd Operand where
  compare_self := (Operand.cmp_eq_iff _ _).mpr rfl
  eq_of_compare := (Operand.cmp_eq_iff _ _).mp

instance : Std.TransOrd Operand := transOrd_of_lt_trans Operand.cmp_lt_trans

instance : Std.OrientedOrd Formula := ⟨Formula.cmp_swap _ _⟩

instance : Std.LawfulEqOrd Formula where
  compare_self := (Formula.cmp_eq_iff _ _).mpr rfl
  eq_of_compare := (Formula.cmp_eq_iff _ _).mp

instance : Std.TransOrd Formula := transOrd_of_lt_trans Formula.cmp_lt_trans

end SystemZ
