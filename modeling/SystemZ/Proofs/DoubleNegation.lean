/-
  SystemZ.Proofs.DoubleNegation
  ─────────────────────────────
  **NEGATING TWICE: WHEN THE TREE COMES BACK, AND THAT THE MEANING DOES.**

  Negation goes through conjunctions and disjunctions to the literals and comes
  back the same way.  Two things may be lost on the way: a reserved symbol that
  stood as an ordinary atom has become a constant, and `X → ⊥` has become `X`.
  The second is only undone if negating `X` puts `→ ⊥` around it, and that it
  does for implications other than `X → ⊥` itself.  So a formula comes back
  exactly when it is stable, which can be read off the tree.

  A strict rule keeps its formula in the antecedent, negated, and its strict
  reading negates it once more.  So the strict reading of a strict rule is the
  formula itself exactly if that is stable; but it means the same in any case.

  Main results:
    `Formula.negate_eq_exceptional_iff`   when negation puts `→ ⊥` around
    `Formula.negate_negate_eq_iff`        when negating twice changes nothing
    `double_negation_restores_stable`
    `strict_reading_has_one_meaning`
-/
import SystemZ.Proofs.StrictRules

namespace SystemZ

/-! ## §1. Stable formulas. -/

/-- Whether this is an implication, and not `F → ⊥`. -/
def Formula.isPlainImplication : Formula → Bool
  | node _ .implies r => !r.isBot
  | _ => false

/-- Whether this is a formula that is a plain implication. -/
def Operand.isPlainImplication : Operand → Bool
  | literal _ => false
  | formula f => f.isPlainImplication

mutual

/-- Whether an operand survives double negation: a literal unless it uses a
reserved symbol as an ordinary atom, and a formula if it does. -/
def Operand.isStable : Operand → Bool
  | .literal l => !l.isReserved
  | .formula f => f.isStable

/-- Whether a formula survives double negation: an implication always, except
that `X → ⊥` takes a plain implication for `X`; anything else if all children
do. -/
def Formula.isStable : Formula → Bool
  | .single x => x.isStable
  | .node x .and r => x.isStable && r.isStable
  | .node x .or r => x.isStable && r.isStable
  | .node x .implies r => !r.isBot || x.isPlainImplication

end

/-! ## §2. Negating twice. -/

/-- A literal comes back unless it uses a reserved symbol. -/
theorem Literal.negate_negate_eq_iff {l : Literal} :
    l.negate.negate = l ↔ l.isReserved = false := by
  cases l with
  | top => simp [negate, isReserved]
  | bot => simp [negate, isReserved]
  | signed a s =>
      show (ofAtom a (!s)).negate = signed a s ↔ a.isReserved = false
      cases hres : a.isReserved with
      | true =>
          -- The constant that it became is negated to the other one.
          simp only [ofAtom, hres, if_true]
          split <;> simp [negate]
      | false =>
          rw [ofAtom_of_not_reserved hres, negate,
            ofAtom_of_not_reserved hres, Bool.not_not]
          simp

namespace Formula

variable {f : Formula} {x : Operand}

theorem negate_exceptional : (node x .implies bot).negate = x.toFormula := by
  rw [negate]
  exact if_pos rfl

/-- No formula contains itself two levels down. -/
theorem ne_node_formula_node {c d : Connective} {q r : Formula} :
    f ≠ node (.formula (node (.formula f) c r)) d q := by
  intro h
  have hsize := congrArg sizeOf h
  simp only [node.sizeOf_spec, Operand.formula.sizeOf_spec] at hsize
  omega

/-- **Negation puts `→ ⊥` around plain implications, and nothing else.** -/
theorem negate_eq_exceptional_iff :
    f.negate = node (.formula f) .implies bot ↔
      f.isPlainImplication = true := by
  cases f with
  | single x => simp [negate, isPlainImplication]
  | node x c r =>
      cases c with
      | and => simp [negate, isPlainImplication]
      | or => simp [negate, isPlainImplication]
      | implies =>
          rw [negate, isPlainImplication]
          cases r.isBot with
          | false => simp
          | true =>
              simp only [if_true, Bool.not_true, Bool.false_eq_true, iff_false]
              -- What `→ ⊥` is taken off does not have it around itself.
              cases x with
              | literal l => simp [Operand.toFormula, leaf]
              | formula g => exact ne_node_formula_node

theorem negate_negate_exceptional_iff :
    (node x .implies bot).negate.negate = node x .implies bot ↔
      x.isPlainImplication = true := by
  rw [negate_exceptional]
  cases x with
  | literal l => simp [Operand.toFormula, leaf, negate,
      Operand.isPlainImplication]
  | formula g => exact negate_eq_exceptional_iff

end Formula

mutual

theorem Operand.negate_negate_eq_iff :
    ∀ x : Operand, x.negate.negate = x ↔ x.isStable = true
  | .literal l => by
      rw [Operand.negate, Operand.negate, Operand.literal.injEq,
        Literal.negate_negate_eq_iff, Operand.isStable, Bool.not_eq_true']
  | .formula f => by
      rw [Operand.negate, Operand.negate, Operand.formula.injEq,
        Formula.negate_negate_eq_iff f, Operand.isStable]

/-- **Negating twice changes nothing exactly on stable formulas.** -/
theorem Formula.negate_negate_eq_iff :
    ∀ f : Formula, f.negate.negate = f ↔ f.isStable = true
  | .single x => by
      rw [Formula.negate, Formula.negate, Formula.single.injEq,
        Operand.negate_negate_eq_iff x, Formula.isStable]
  | .node x .and r | .node x .or r => by
      rw [Formula.negate, Formula.negate, Formula.node.injEq,
        Operand.negate_negate_eq_iff x, Formula.negate_negate_eq_iff r,
        Formula.isStable, Bool.and_eq_true]
      simp
  | .node x .implies r => by
      rw [Formula.isStable]
      cases hr : r.isBot with
      | true =>
          rw [Formula.isBot_iff.mp hr, Formula.negate_negate_exceptional_iff]
          simp
      | false =>
          -- What is put around comes off again.
          have hplain : (Formula.node x .implies r).isPlainImplication =
              true := by
            rw [Formula.isPlainImplication, hr]
            rfl
          rw [Formula.negate_eq_exceptional_iff.mpr hplain,
            Formula.negate_exceptional]
          simp [Operand.toFormula]

end

/-- **Double negation restores exactly the stable formulas.**  For any literals
in it, a formula is its own double negation exactly if it is stable, and the
strict rule that it holds has the formula itself as its strict reading exactly
if it is stable. -/
theorem double_negation_restores_stable (f : Formula) :
    (f.negate.negate = f ↔ f.isStable = true) ∧
      ((Conditional.classical (.formula f)).materialize = f ↔
        f.isStable = true) := by
  have hreading : (Conditional.classical (.formula f)).materialize =
      f.negate.negate := rfl
  rw [hreading]
  exact ⟨f.negate_negate_eq_iff, f.negate_negate_eq_iff⟩

/-! ## §3. Strict readings. -/

/-- **The strict reading has one meaning, by either way to it.**  The strict
reading of a reserved-free conditional is the negated antecedent if the
conditional is classical, and else the implication.  Under every valuation it
is true exactly when the antecedent is false or the consequent true, and it
mentions the atoms of the conditional.  The strict rule that something
reserved-free holds is classical, and its strict reading evaluates as what it
is made from. -/
theorem strict_reading_has_one_meaning :
    (∀ s : Conditional, s.ReservedFree →
      (s.isClassical = true → s.materialize = s.antecedent.negate) ∧
      (s.isClassical = false → s.materialize =
        .node (.formula s.antecedent) .implies s.consequent) ∧
      (∀ v : Valuation, v.satisfies s.materialize = true ↔
        v.satisfies s.antecedent = false ∨
          v.satisfies s.consequent = true) ∧
      s.materialize.atoms = s.atoms) ∧
    ∀ φ : Formula, φ.ReservedFree →
      (Conditional.classical (.formula φ)).isClassical = true ∧
        ∀ v : Valuation,
          v.satisfies (Conditional.classical (.formula φ)).materialize =
            v.satisfies φ := by
  constructor
  · intro s hs
    refine ⟨?_, ?_, ?_, Conditional.atoms_materialize hs⟩
    · intro hclassical
      rw [Conditional.materialize, if_pos hclassical]
    · intro hclassical
      rw [Conditional.materialize, hclassical]
      rfl
    · intro v
      show s.materialize.holds v.value = true ↔ _
      rw [Conditional.holds_materialize hs, Bool.or_eq_true,
        Bool.not_eq_true']
      rfl
  · intro φ hφ
    refine ⟨rfl, ?_⟩
    intro v
    have hx : (Operand.formula φ).toFormula.ReservedFree := hφ
    exact Conditional.holds_materialize_classical hx v.value

/-- There are no penguins, written `p → ⊥`; that is not stable. -/
def noPenguins : Formula :=
  .imp (.literal (.positive ⟨"p"⟩)) (.literal .bot)

/-- As a strict rule it is read as `¬p`, which means the same. -/
theorem strict_reading_of_noPenguins :
    noPenguins.ReservedFree ∧
      (Conditional.classical (.formula noPenguins)).ReservedFree ∧
      (Conditional.classical (.formula noPenguins)).materialize =
        .leaf (.negative ⟨"p"⟩) ∧
      (∀ v : Valuation,
        v.satisfies (Conditional.classical (.formula noPenguins)).materialize =
            true ↔
          v.satisfies (.leaf (.positive ⟨"p"⟩)) = false ∨
            v.satisfies .bot = true) ∧
      ∀ v : Valuation,
        v.satisfies (Conditional.classical (.formula noPenguins)).materialize =
          v.satisfies noPenguins := by
  have hφ : noPenguins.ReservedFree := by decide
  have hs : (Conditional.classical (.formula noPenguins)).ReservedFree := by
    decide
  obtain ⟨hconditional, hformula⟩ := strict_reading_has_one_meaning
  obtain ⟨hnegated, _, hmeaning, _⟩ := hconditional _ hs
  exact ⟨hφ, hs, (hnegated rfl).trans (by decide), hmeaning,
    (hformula _ hφ).2⟩

end SystemZ
