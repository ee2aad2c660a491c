/-
  SystemZ.Formula.Meaning
  ───────────────────────
  **WHAT THE CONSTRUCTIONS OF FORMULAS MEAN.**

  A formula is reserved-free when none of its literals uses a reserved symbol
  as an ordinary atom.  On such formulas negation is the Boolean one; on
  others it is not, because the negation of such a literal is a constant.
  The three connectives mean what their truth tables say for all operands,
  with or without their simplifications.

  Main results:
    `Formula.holds_negate`                   negation turns the value round
    `holds_conj`, `holds_disj`, `holds_imp`  the connectives
-/
import SystemZ.Formula.Build

namespace SystemZ

/-! ## §1. Reserved-free formulas. -/

/-- No literal of the operand uses a reserved symbol as an ordinary atom. -/
def Operand.ReservedFree (x : Operand) : Prop :=
  ∀ l ∈ x.occurrences, l.isReserved = false

/-- No literal of the formula uses a reserved symbol as an ordinary atom. -/
def Formula.ReservedFree (f : Formula) : Prop :=
  ∀ l ∈ f.occurrences, l.isReserved = false

instance (x : Operand) : Decidable x.ReservedFree :=
  inferInstanceAs (Decidable (∀ l ∈ x.occurrences, l.isReserved = false))

instance (f : Formula) : Decidable f.ReservedFree :=
  inferInstanceAs (Decidable (∀ l ∈ f.occurrences, l.isReserved = false))

theorem Formula.reservedFree_node {x : Operand} {c : Connective}
    {r : Formula} :
    (node x c r).ReservedFree ↔ x.ReservedFree ∧ r.ReservedFree := by
  simp only [Formula.ReservedFree, Operand.ReservedFree, Formula.occurrences,
    List.mem_append]
  constructor
  · intro h
    exact ⟨fun l hl => h l (.inl hl), fun l hl => h l (.inr hl)⟩
  · rintro ⟨hx, hr⟩ l (hl | hl)
    · exact hx l hl
    · exact hr l hl

/-- A formula is reserved-free exactly when it has no least offending
literal. -/
theorem Formula.reservedLiteral?_eq_none_iff {f : Formula} :
    f.reservedLiteral? = none ↔ f.ReservedFree := by
  simp [reservedLiteral?, Formula.ReservedFree, mem_literals]

/-! ## §2. Negation. -/

/-- An ordinary symbol gives an ordinary literal. -/
theorem Literal.ofAtom_of_not_reserved {a : Atom} {s : Bool}
    (h : a.isReserved = false) : ofAtom a s = signed a s := by
  simp [ofAtom, h]

theorem Literal.holds_negate {value : Atom → Bool} {l : Literal}
    (h : l.isReserved = false) : l.negate.holds value = !l.holds value := by
  cases l with
  | signed a s =>
      rw [negate, ofAtom_of_not_reserved h]
      simp only [holds]
      cases value a <;> cases s <;> rfl
  | top => rfl
  | bot => rfl

mutual

theorem Operand.holds_negate {value : Atom → Bool} :
    ∀ x : Operand, x.ReservedFree → x.negate.holds value = !x.holds value
  | .literal l, h => by
      rw [Operand.negate, Operand.holds, Operand.holds]
      by_cases hl : l.isConstant
      · cases l with
        | signed a s => cases hl
        | top => rfl
        | bot => rfl
      · exact Literal.holds_negate (h l (by simp [Operand.occurrences, hl]))
  | .formula f, h => by
      rw [Operand.negate, Operand.holds, Operand.holds]
      exact Formula.holds_negate f h

/-- **Negation turns the truth value round.** -/
theorem Formula.holds_negate {value : Atom → Bool} :
    ∀ f : Formula, f.ReservedFree → f.negate.holds value = !f.holds value
  | .single x, h => by
      rw [Formula.negate, Formula.holds, Formula.holds]
      exact Operand.holds_negate x h
  | .node x .and r, h => by
      obtain ⟨hx, hr⟩ := Formula.reservedFree_node.mp h
      rw [Formula.negate, Formula.holds, Formula.holds,
        Operand.holds_negate x hx, Formula.holds_negate r hr]
      simp [Connective.apply]
  | .node x .or r, h => by
      obtain ⟨hx, hr⟩ := Formula.reservedFree_node.mp h
      rw [Formula.negate, Formula.holds, Formula.holds,
        Operand.holds_negate x hx, Formula.holds_negate r hr]
      simp [Connective.apply]
  | .node x .implies r, _ => by
      rw [Formula.negate]
      split
      case isTrue hr =>
        rw [Formula.isBot_iff.mp hr, Operand.holds_toFormula, Formula.holds,
          Formula.holds_bot]
        simp [Connective.apply]
      case isFalse =>
        rw [Formula.holds, Operand.holds, Formula.holds_bot]
        simp [Connective.apply]

end

/-! ## §3. The connectives. -/

namespace Formula

variable (value : Atom → Bool) (x y : Operand)

theorem holds_conj :
    (conj x y).holds value = (x.holds value && y.holds value) := by
  unfold conj
  split
  · simp [Operand.holds, Literal.holds]
  · simp [Operand.holds, Literal.holds]
  · simp [Formula.holds, Operand.holds, Connective.apply]

theorem holds_disj :
    (disj x y).holds value = (x.holds value || y.holds value) := by
  unfold disj
  split
  · simp [Operand.holds, Literal.holds]
  · simp [Operand.holds, Literal.holds]
  · simp [Formula.holds, Operand.holds, Connective.apply]

theorem holds_imp :
    (imp x y).holds value = (!x.holds value || y.holds value) := by
  simp [imp, Formula.holds, Operand.holds, Connective.apply]

end Formula

end SystemZ
