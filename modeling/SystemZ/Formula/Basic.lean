/-
  SystemZ.Formula.Basic
  ─────────────────────
  **FORMULAS AS BINARY TREES, AND WHAT THEY MEAN.**

  A formula is a root with a left operand and, if it is compound, a
  connective and a right formula.  The left operand is a literal or a formula
  again; the right child is always a formula.  So a literal, the one-node
  formula on it and the one-node formula on that are three different values,
  with one meaning.

  The negation of an implication, which no rule of negation pushes down, is
  kept as `F → ⊥`: such a formula is called exceptional.

  Main results:
    `holds_congr`      the value of a formula depends on its atoms alone
    `holds_toFormula`  lifting an operand to a formula keeps its meaning
-/
import SystemZ.Literal
import SystemZ.SortedSet.Lemmas

namespace SystemZ

/-! ## §1. Trees. -/

/-- The binary connectives. -/
inductive Connective where
  | and
  | or
  /-- Material implication. -/
  | implies
  deriving DecidableEq, Inhabited

mutual

/-- The left child of a root: a literal or a formula. -/
inductive Operand where
  | literal (l : Literal)
  | formula (f : Formula)

/-- A formula. -/
inductive Formula where
  /-- A root without connective, which stands for its operand. -/
  | single (left : Operand)
  /-- A root with a connective. -/
  | node (left : Operand) (connective : Connective) (right : Formula)

end

deriving instance DecidableEq for Operand, Formula

instance : Inhabited Operand := ⟨.literal .top⟩

instance : Inhabited Formula := ⟨.single (.literal .top)⟩

namespace Formula

/-- The one-node formula on a literal. -/
def leaf (l : Literal) : Formula := single (.literal l)

/-- The one-node formula `⊤`. -/
def top : Formula := leaf .top

/-- The one-node formula `⊥`. -/
def bot : Formula := leaf .bot

/-- The left operand of the root. -/
def left : Formula → Operand
  | single x => x
  | node x _ _ => x

/-- The connective of the root, if it has one. -/
def connective? : Formula → Option Connective
  | single _ => none
  | node _ c _ => some c

/-- The right child of the root, if it has one. -/
def right? : Formula → Option Formula
  | single _ => none
  | node _ _ r => some r

/-- Whether the root has a connective. -/
def isCompound : Formula → Bool
  | single _ => false
  | node .. => true

/-- Whether this is the one-node formula `⊥` itself. -/
def isBot : Formula → Bool
  | single (.literal .bot) => true
  | _ => false

/-- Whether this is `F → ⊥`, the form that keeps the negation of `F`. -/
def isExceptional : Formula → Bool
  | node _ .implies r => r.isBot
  | _ => false

theorem isBot_iff {f : Formula} : f.isBot = true ↔ f = bot := by
  constructor
  · intro h
    unfold isBot at h
    split at h
    · rfl
    · cases h
  · rintro rfl; rfl

end Formula

namespace Operand

/-- An operand as a formula: a literal becomes a one-node formula, and a
formula stays as it is. -/
def toFormula : Operand → Formula
  | literal l => .leaf l
  | formula f => f

/-- Whether this is a formula with a connective at its root. -/
def isCompound : Operand → Bool
  | literal _ => false
  | formula f => f.isCompound

end Operand

/-! ## §2. Meaning. -/

/-- The truth table of a connective. -/
def Connective.apply : Connective → Bool → Bool → Bool
  | and, a, b => a && b
  | or, a, b => a || b
  | implies, a, b => !a || b

mutual

/-- The truth value of an operand, given those of the atoms. -/
def Operand.holds (value : Atom → Bool) : Operand → Bool
  | .literal l => l.holds value
  | .formula f => f.holds value

/-- The truth value of a formula, given those of the atoms. -/
def Formula.holds (value : Atom → Bool) : Formula → Bool
  | .single x => x.holds value
  | .node x c r => c.apply (x.holds value) (r.holds value)

end

/-! ## §3. Occurring literals and atoms. -/

mutual

/-- The literals of an operand from left to right, constants left out. -/
def Operand.occurrences : Operand → List Literal
  | .literal l => if l.isConstant then [] else [l]
  | .formula f => f.occurrences

/-- The literals of a formula from left to right, constants left out. -/
def Formula.occurrences : Formula → List Literal
  | .single x => x.occurrences
  | .node x _ r => x.occurrences ++ r.occurrences

end

namespace Formula

/-- The set of literals that occur in a formula, constants left out. -/
def literals (f : Formula) : SortedSet Literal := .ofList f.occurrences

/-- The set of atoms that occur in a formula, constants left out. -/
def atoms (f : Formula) : SortedSet Atom := f.literals.map Literal.atom

theorem mem_literals {f : Formula} {l : Literal} :
    l ∈ f.literals ↔ l ∈ f.occurrences := SortedSet.mem_ofList

theorem mem_atoms {f : Formula} {a : Atom} :
    a ∈ f.atoms ↔ ∃ l ∈ f.occurrences, l.atom = a := by
  simp [atoms, mem_literals]

end Formula

/-! ## §4. Basic facts on meaning. -/

@[simp] theorem Operand.holds_toFormula (value : Atom → Bool) (x : Operand) :
    x.toFormula.holds value = x.holds value := by
  cases x <;> simp [toFormula, Formula.leaf, Formula.holds, Operand.holds]

@[simp] theorem Formula.holds_top (value : Atom → Bool) :
    top.holds value = true := rfl

@[simp] theorem Formula.holds_bot (value : Atom → Bool) :
    bot.holds value = false := rfl

/-- The value of a literal depends on its atom alone. -/
theorem Literal.holds_congr {v w : Atom → Bool} {l : Literal}
    (h : l.isConstant = false → v l.atom = w l.atom) :
    l.holds v = l.holds w := by
  cases l with
  | signed a s => exact congrArg (· == s) (h rfl)
  | top => rfl
  | bot => rfl

mutual

/-- The value of an operand depends on its occurring literals alone. -/
theorem Operand.holds_congr {v w : Atom → Bool} :
    ∀ x : Operand, (∀ l ∈ x.occurrences, v l.atom = w l.atom) →
      x.holds v = x.holds w
  | .literal l, h => Literal.holds_congr fun hl =>
      h l (by simp [Operand.occurrences, hl])
  | .formula f, h => Formula.holds_congr_of_occurrences f h

/-- The value of a formula depends on its occurring literals alone. -/
theorem Formula.holds_congr_of_occurrences {v w : Atom → Bool} :
    ∀ f : Formula, (∀ l ∈ f.occurrences, v l.atom = w l.atom) →
      f.holds v = f.holds w
  | .single x, h => Operand.holds_congr x h
  | .node x c r, h => by
      have hx := Operand.holds_congr x fun l hl =>
        h l (List.mem_append_left _ hl)
      have hr := Formula.holds_congr_of_occurrences r fun l hl =>
        h l (List.mem_append_right _ hl)
      rw [Formula.holds, Formula.holds, hx, hr]

end

/-- **The value of a formula depends on its atoms alone.** -/
theorem Formula.holds_congr {v w : Atom → Bool} {f : Formula}
    (h : ∀ a ∈ f.atoms, v a = w a) : f.holds v = f.holds w :=
  Formula.holds_congr_of_occurrences f fun l hl =>
    h l.atom (Formula.mem_atoms.mpr ⟨l, hl, rfl⟩)

end SystemZ
