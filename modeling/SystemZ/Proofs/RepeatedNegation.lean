/-
  SystemZ.Proofs.RepeatedNegation
  ───────────────────────────────
  **NEGATING AGAIN AND AGAIN SETTLES IN A CYCLE OF TWO.**

  A formula that is not stable does not come back when it is negated twice, but
  what becomes of it is stable sooner or later.  How many negations that takes
  can be read off the tree.  A reserved symbol needs one, to become a constant.
  A conjunction or a disjunction needs as many as the slower child.  `X → ⊥`
  becomes `X` by the first one and then needs what `X` needs, unless `X` is a
  plain implication: then the two take turns from the start.

  Call this number the unrest of a formula.  One negation takes one off it, and
  it is zero exactly on stable formulas; so it says to the step when the cycle
  begins.  Every step that it counts is used up by a node of its own.

  Main results:
    `Formula.unrest_eq_zero_iff`   no unrest is to be stable
    `Formula.unrest_negate`        one negation takes one off
    `Formula.iterate_negate_add_two_eq_iff`   when the cycle begins
    `Formula.unrest_le_nodeCount`  at the latest after as many steps as nodes
    `repeated_negation_settles`
-/
import Mathlib.Logic.Function.Iterate
import SystemZ.Proofs.Constructions
import SystemZ.Proofs.DoubleNegation

namespace SystemZ

/-! ## §1. Nodes and unrest. -/

mutual

/-- The number of formulas in an operand. -/
def Operand.nodeCount : Operand → Nat
  | .literal _ => 0
  | .formula f => f.nodeCount

/-- The number of formulas in a formula: itself, and those in its children. -/
def Formula.nodeCount : Formula → Nat
  | .single x => x.nodeCount + 1
  | .node x _ r => x.nodeCount + r.nodeCount + 1

end

mutual

/-- How many negations it takes until an operand is stable. -/
def Operand.unrest : Operand → Nat
  | .literal l => if l.isReserved then 1 else 0
  | .formula f => f.unrest

/-- How many negations it takes until a formula is stable. -/
def Formula.unrest : Formula → Nat
  | .single x => x.unrest
  | .node x .and r => max x.unrest r.unrest
  | .node x .or r => max x.unrest r.unrest
  | .node x .implies r =>
      if !r.isBot || x.isPlainImplication then 0 else x.unrest + 1

end

/-- Lifting an operand to a formula keeps its unrest. -/
theorem Operand.unrest_toFormula (x : Operand) :
    x.toFormula.unrest = x.unrest := by
  cases x <;> rfl

/-- A plain implication has come to rest. -/
theorem Operand.unrest_of_isPlainImplication {x : Operand}
    (h : x.isPlainImplication = true) : x.unrest = 0 := by
  cases x with
  | literal l => cases h
  | formula f =>
      rw [isPlainImplication] at h
      unfold Formula.isPlainImplication at h
      split at h
      case h_1 y r =>
        show (Formula.node y .implies r).unrest = 0
        rw [Formula.unrest, h]
        rfl
      case h_2 => cases h

mutual

theorem Operand.unrest_eq_zero_iff : ∀ x : Operand,
    x.unrest = 0 ↔ x.isStable = true
  | .literal l => by
      rw [Operand.unrest, Operand.isStable]
      cases l.isReserved <;> simp
  | .formula f => by
      rw [Operand.unrest, Operand.isStable]
      exact Formula.unrest_eq_zero_iff f

/-- **No unrest is to be stable.** -/
theorem Formula.unrest_eq_zero_iff : ∀ f : Formula,
    f.unrest = 0 ↔ f.isStable = true
  | .single x => by
      rw [Formula.unrest, Formula.isStable]
      exact Operand.unrest_eq_zero_iff x
  | .node x .and r | .node x .or r => by
      rw [Formula.unrest, Formula.isStable, Bool.and_eq_true,
        ← Operand.unrest_eq_zero_iff x, ← Formula.unrest_eq_zero_iff r]
      omega
  | .node x .implies r => by
      rw [Formula.unrest, Formula.isStable]
      split
      case isTrue h => simp [h]
      case isFalse h => simp [h]

end

/-! ## §2. One negation. -/

/-- What has been negated is not a reserved literal. -/
theorem Literal.isReserved_negate (l : Literal) :
    l.negate.isReserved = false := by
  cases l with
  | signed a s => exact Literal.isReserved_ofAtom a (!s)
  | top => rfl
  | bot => rfl

mutual

theorem Operand.unrest_negate : ∀ x : Operand,
    x.negate.unrest = x.unrest - 1
  | .literal l => by
      rw [Operand.negate, Operand.unrest, Operand.unrest,
        Literal.isReserved_negate]
      cases l.isReserved <;> rfl
  | .formula f => Formula.unrest_negate f

/-- **One negation takes one off the unrest**, as long as there is any. -/
theorem Formula.unrest_negate : ∀ f : Formula,
    f.negate.unrest = f.unrest - 1
  | .single x => Operand.unrest_negate x
  | .node x .and r | .node x .or r => by
      rw [Formula.negate, Formula.unrest, Formula.unrest,
        Operand.unrest_negate x, Formula.unrest_negate r]
      omega
  | .node x .implies r => by
      cases hr : r.isBot with
      | true =>
          -- `→ ⊥` comes off, and leaves what is under it.
          rw [Formula.isBot_iff.mp hr, Formula.negate_exceptional,
            Operand.unrest_toFormula, Formula.unrest]
          by_cases hplain : x.isPlainImplication = true
          · rw [Operand.unrest_of_isPlainImplication hplain, hplain]
            rfl
          · rw [Bool.not_eq_true] at hplain
            rw [hplain]
            rfl
      | false =>
          -- `→ ⊥` is put around a plain implication, and is at rest there.
          have hplain : (Formula.node x .implies r).isPlainImplication =
              true := by
            rw [Formula.isPlainImplication, hr]
            rfl
          rw [Formula.negate_eq_exceptional_iff.mpr hplain, Formula.unrest,
            Formula.unrest, Operand.isPlainImplication, hplain, hr]
          rfl

end

/-! ## §3. Many negations. -/

namespace Formula

variable {f : Formula} {n : Nat}

/-- Each negation takes one off the unrest until none is left. -/
theorem unrest_iterate_negate (f : Formula) (n : Nat) :
    (negate^[n] f).unrest = f.unrest - n := by
  induction n with
  | zero => rfl
  | succ n ih =>
      rw [Function.iterate_succ_apply', unrest_negate, ih]
      omega

/-- **The cycle of two begins when the unrest is used up**, and not before. -/
theorem iterate_negate_add_two_eq_iff :
    negate^[n + 2] f = negate^[n] f ↔ f.unrest ≤ n := by
  rw [Function.iterate_succ_apply', Function.iterate_succ_apply',
    negate_negate_eq_iff, ← unrest_eq_zero_iff, unrest_iterate_negate]
  omega

end Formula

mutual

theorem Operand.unrest_le_nodeCount : ∀ x : Operand,
    x.unrest ≤ x.nodeCount + 1
  | .literal l => by
      rw [Operand.unrest]
      split <;> omega
  | .formula f => by
      have hf := Formula.unrest_le_nodeCount f
      rw [Operand.unrest, Operand.nodeCount]
      omega

/-- **The unrest of a formula is at most the number of its nodes.** -/
theorem Formula.unrest_le_nodeCount : ∀ f : Formula,
    f.unrest ≤ f.nodeCount
  | .single x => Operand.unrest_le_nodeCount x
  | .node x .and r | .node x .or r => by
      have hx := Operand.unrest_le_nodeCount x
      have hr := Formula.unrest_le_nodeCount r
      rw [Formula.unrest, Formula.nodeCount]
      omega
  | .node x .implies r => by
      have hx := Operand.unrest_le_nodeCount x
      rw [Formula.unrest, Formula.nodeCount]
      split
      case isTrue => omega
      case isFalse h =>
        -- The right child is a node as well: the `⊥` that comes off.
        have hr : 1 ≤ r.nodeCount := by
          cases r <;> rw [Formula.nodeCount] <;> omega
        omega

end

/-- **Repeated negation settles.**  For any literals in a formula, from as many
negations on as the formula has nodes, two more give the same tree again.
They do so exactly from the number on that is the unrest of the formula. -/
theorem repeated_negation_settles (f : Formula) (n : Nat) :
    (f.nodeCount ≤ n → Formula.negate^[n + 2] f = Formula.negate^[n] f) ∧
      (Formula.negate^[n + 2] f = Formula.negate^[n] f ↔ f.unrest ≤ n) := by
  refine ⟨?_, Formula.iterate_negate_add_two_eq_iff⟩
  intro hn
  have hunrest : f.unrest ≤ n := by
    calc f.unrest ≤ f.nodeCount := f.unrest_le_nodeCount
      _ ≤ n := hn
  exact Formula.iterate_negate_add_two_eq_iff.mpr hunrest

/-- The symbol `⊤` as an ordinary atom, with `→ ⊥` around it twice. -/
def shroudedTop : Formula :=
  .node (.formula (.node (.literal (.signed ⟨Atom.topSymbol⟩ true)) .implies
    .bot)) .implies .bot

/-- Two negations uncover the symbol and the third turns it into `⊥`. -/
theorem shroudedTop_settles :
    shroudedTop.nodeCount = 4 ∧
      Formula.negate^[4 + 2] shroudedTop = Formula.negate^[4] shroudedTop ∧
      shroudedTop.unrest = 3 ∧
      Formula.negate^[3 + 2] shroudedTop = Formula.negate^[3] shroudedTop ∧
      Formula.negate^[3] shroudedTop = .bot ∧
      Formula.negate^[2 + 2] shroudedTop ≠
        Formula.negate^[2] shroudedTop := by
  have hnodes : shroudedTop.nodeCount = 4 := by decide
  have hunrest : shroudedTop.unrest = 3 := by decide
  refine ⟨hnodes, ?_, hunrest, ?_, by decide, ?_⟩
  · exact (repeated_negation_settles shroudedTop 4).1 (by rw [hnodes])
  · exact (repeated_negation_settles shroudedTop 3).2.mpr (by rw [hunrest])
  · rw [ne_eq, (repeated_negation_settles shroudedTop 2).2, hunrest]
    decide

end SystemZ
