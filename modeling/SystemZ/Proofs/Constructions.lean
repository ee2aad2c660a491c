/-
  SystemZ.Proofs.Constructions
  ────────────────────────────
  **BUILT FORMULAS MEAN WHAT THEIR CONSTRUCTION SAYS.**

  A construction is an expression that says how a formula is made, from the
  two constants and from atoms under a sign, by the connectives, by negation,
  by lifting, and part by part.  It can be carried out, which gives an
  operand, and it can be read as a Boolean expression.  Constants that
  simplify away, symbols that turn into constants and the several shapes of a
  negation make the tree differ from the expression, but never its value.

  Everything rests on one invariant: what has been built so far is
  reserved-free.  Under it negation is the Boolean one and `ofParts` refuses
  nothing, and no step breaks it.

  Main results:
    `Formula.ofParts_eq_ok`            reserved-free parts make a formula
    `Construction.exists_renders`      the invariant, for every construction
    `Construction.build_preserves_meaning`
-/
import SystemZ.Proofs.Assignments
import SystemZ.Proofs.Negation

namespace SystemZ

/-! ## §1. Building keeps formulas reserved-free. -/

/-- The ordinary way to a literal never leads to a reserved one. -/
theorem Literal.isReserved_ofAtom (a : Atom) (s : Bool) :
    (ofAtom a s).isReserved = false := by
  unfold ofAtom
  split
  case isTrue => split <;> rfl
  case isFalse h => exact Bool.not_eq_true _ ▸ h

theorem Operand.reservedFree_literal {l : Literal}
    (h : l.isReserved = false) : (literal l).ReservedFree := by
  intro k hk
  rw [occurrences] at hk
  split at hk
  · cases hk
  · exact List.mem_singleton.mp hk ▸ h

theorem Operand.reservedFree_toFormula {x : Operand} :
    x.toFormula.ReservedFree ↔ x.ReservedFree := by
  rw [Formula.ReservedFree, Operand.ReservedFree, occurrences_toFormula]

namespace Formula

variable {x y : Operand}

/-- A root with two operands, of which the right one is lifted. -/
theorem reservedFree_root (c : Connective) (hx : x.ReservedFree)
    (hy : y.ReservedFree) : (node x c y.toFormula).ReservedFree :=
  reservedFree_node.mpr ⟨hx, Operand.reservedFree_toFormula.mpr hy⟩

/-- The root that the connectives make lifts the left operand as well. -/
theorem reservedFree_lifted (c : Connective) (hx : x.ReservedFree)
    (hy : y.ReservedFree) :
    (node (.formula x.toFormula) c y.toFormula).ReservedFree :=
  reservedFree_root c (Operand.reservedFree_toFormula.mpr hx) hy

theorem reservedFree_conj (hx : x.ReservedFree) (hy : y.ReservedFree) :
    (conj x y).ReservedFree := by
  unfold conj
  split
  · exact Operand.reservedFree_toFormula.mpr hy
  · decide
  · exact reservedFree_lifted .and hx hy

theorem reservedFree_disj (hx : x.ReservedFree) (hy : y.ReservedFree) :
    (disj x y).ReservedFree := by
  unfold disj
  split
  · decide
  · exact Operand.reservedFree_toFormula.mpr hy
  · exact reservedFree_lifted .or hx hy

/-- The negation of an implication, by its right side. -/
theorem negate_implies (x : Operand) (r : Formula) :
    (node x .implies r).negate =
      if r = .bot then x.toFormula
      else .node (.formula (.node x .implies r)) .implies .bot := by
  rw [negate]
  simp only [isBot_iff]

/-- **Reserved-free parts of the right shape make a formula.** -/
theorem ofParts_eq_ok {c : Option Connective} {y : Option Operand}
    {f : Formula} (h : assemble x c y = .ok f) (hf : f.ReservedFree) :
    ofParts x c y = .ok f := by
  rw [ofParts, h]
  simp only [reservedLiteral?_eq_none_iff.mpr hf]

end Formula

/-! ## §2. Constructions. -/

/-- A way to build an operand. -/
inductive Construction where
  | top
  | bot
  /-- The literal of an atom under a sign; a reserved symbol gives a
  constant. -/
  | literal (a : Atom) (sign : Bool)
  | conj (d e : Construction)
  | disj (d e : Construction)
  | imp (d e : Construction)
  | neg (e : Construction)
  /-- The operand as a formula. -/
  | lift (e : Construction)
  /-- The root that has the operand as its only part. -/
  | alone (e : Construction)
  /-- The root that has both operands as parts, with a connective. -/
  | parts (d : Construction) (c : Connective) (e : Construction)

/-- The truth value of an atom as its symbol is read: a reserved symbol
writes a constant. -/
def Atom.reading (value : Atom → Bool) (a : Atom) : Bool :=
  if a.symbol = topSymbol then true
  else if a.symbol = botSymbol then false
  else value a

/-- The literal of an atom compares the reading of the atom with the sign. -/
theorem Literal.holds_ofAtom (value : Atom → Bool) (a : Atom) (s : Bool) :
    (ofAtom a s).holds value = (a.reading value == s) := by
  by_cases htop : a.symbol = Atom.topSymbol
  · have hres : a.isReserved = true := by simp [Atom.isReserved, htop]
    rw [ofAtom, if_pos hres, Atom.reading, if_pos htop, htop]
    cases s <;> rfl
  · by_cases hbot : a.symbol = Atom.botSymbol
    · have hres : a.isReserved = true := by simp [Atom.isReserved, hbot]
      rw [ofAtom, if_pos hres, Atom.reading, if_neg htop,
        if_pos hbot, beq_false_of_ne htop]
      cases s <;> rfl
    · have hres : a.isReserved = false := by
        simp [Atom.isReserved, htop, hbot]
      rw [ofAtom_of_not_reserved hres, Atom.reading, if_neg htop,
        if_neg hbot]
      rfl

namespace Construction

/-- Carries a construction out, operands from left to right. -/
def build : Construction → Except FormulaError Operand
  | top => .ok (.literal .top)
  | bot => .ok (.literal .bot)
  | literal a s => .ok (.literal (.ofAtom a s))
  | conj d e => do return .formula (.conj (← d.build) (← e.build))
  | disj d e => do return .formula (.disj (← d.build) (← e.build))
  | imp d e => do return .formula (.imp (← d.build) (← e.build))
  | neg e => do return .formula (.neg (← e.build))
  | lift e => do return .formula (← e.build).toFormula
  | alone e => do (Formula.ofParts (← e.build) none none).map .formula
  | parts d c e => do
      (Formula.ofParts (← d.build) (some c) (some (← e.build))).map .formula

/-- The value of a construction, read as a Boolean expression. -/
def meaning (value : Atom → Bool) : Construction → Bool
  | top => true
  | bot => false
  | literal a s => a.reading value == s
  | conj d e | parts d .and e => d.meaning value && e.meaning value
  | disj d e | parts d .or e => d.meaning value || e.meaning value
  | imp d e | parts d .implies e => !d.meaning value || e.meaning value
  | neg e => !e.meaning value
  | lift e | alone e => e.meaning value

/-! ## §3. One step at a time. -/

/-- A construction gives an operand that is reserved-free and means what the
construction says. -/
structure Renders (e : Construction) (x : Operand) : Prop where
  build_eq : e.build = .ok x
  reservedFree : x.ReservedFree
  holds_eq : ∀ value, x.holds value = e.meaning value

variable {d e : Construction} {x y : Operand}

theorem renders_literal (a : Atom) (s : Bool) :
    (literal a s).Renders (.literal (.ofAtom a s)) where
  build_eq := rfl
  reservedFree := Operand.reservedFree_literal (Literal.isReserved_ofAtom a s)
  holds_eq value := Literal.holds_ofAtom value a s

theorem Renders.conj (hd : d.Renders x) (he : e.Renders y) :
    (conj d e).Renders (.formula (.conj x y)) where
  build_eq := by
    rw [build, hd.build_eq, he.build_eq]
    rfl
  reservedFree := Formula.reservedFree_conj hd.reservedFree he.reservedFree
  holds_eq value := by
    rw [Operand.holds, Formula.holds_conj, hd.holds_eq, he.holds_eq, meaning]

theorem Renders.disj (hd : d.Renders x) (he : e.Renders y) :
    (disj d e).Renders (.formula (.disj x y)) where
  build_eq := by
    rw [build, hd.build_eq, he.build_eq]
    rfl
  reservedFree := Formula.reservedFree_disj hd.reservedFree he.reservedFree
  holds_eq value := by
    rw [Operand.holds, Formula.holds_disj, hd.holds_eq, he.holds_eq, meaning]

theorem Renders.imp (hd : d.Renders x) (he : e.Renders y) :
    (imp d e).Renders (.formula (.imp x y)) where
  build_eq := by
    rw [build, hd.build_eq, he.build_eq]
    rfl
  reservedFree :=
    Formula.reservedFree_lifted .implies hd.reservedFree he.reservedFree
  holds_eq value := by
    rw [Operand.holds, Formula.holds_imp, hd.holds_eq, he.holds_eq, meaning]

theorem Renders.lift (he : e.Renders x) :
    (lift e).Renders (.formula x.toFormula) where
  build_eq := by
    rw [build, he.build_eq]
    rfl
  reservedFree := Operand.reservedFree_toFormula.mpr he.reservedFree
  holds_eq value := by
    rw [Operand.holds, Operand.holds_toFormula, he.holds_eq, meaning]

theorem Renders.neg (he : e.Renders x) :
    (neg e).Renders (.formula (.neg x)) where
  build_eq := by
    rw [build, he.build_eq]
    rfl
  reservedFree := (Operand.reservedFree_toFormula.mpr he.reservedFree).negate
  holds_eq value := by
    have hx : x.toFormula.ReservedFree :=
      Operand.reservedFree_toFormula.mpr he.reservedFree
    rw [Operand.holds, Formula.holds_neg hx, he.holds_eq, meaning]

theorem Renders.alone (he : e.Renders x) :
    (alone e).Renders (.formula (.single x)) where
  build_eq := by
    rw [build, he.build_eq]
    show (Formula.ofParts x none none).map Operand.formula = _
    have hok : Formula.ofParts x none none = .ok (.single x) :=
      Formula.ofParts_eq_ok rfl he.reservedFree
    rw [hok]
    rfl
  reservedFree := he.reservedFree
  holds_eq value := by
    rw [Operand.holds, Formula.holds, he.holds_eq, meaning]

theorem Renders.parts (c : Connective) (hd : d.Renders x)
    (he : e.Renders y) :
    (parts d c e).Renders (.formula (.node x c y.toFormula)) where
  build_eq := by
    rw [build, hd.build_eq, he.build_eq]
    show (Formula.ofParts x (some c) (some y)).map Operand.formula = _
    have hok : Formula.ofParts x (some c) (some y) =
        .ok (.node x c y.toFormula) :=
      Formula.ofParts_eq_ok rfl
        (Formula.reservedFree_root c hd.reservedFree he.reservedFree)
    rw [hok]
    rfl
  reservedFree :=
    Formula.reservedFree_root c hd.reservedFree he.reservedFree
  holds_eq value := by
    rw [Operand.holds, Formula.holds, Operand.holds_toFormula, hd.holds_eq,
      he.holds_eq]
    cases c <;> rfl

/-! ## §4. All constructions. -/

/-- **Every construction can be carried out**, and gives a reserved-free
operand that means what it says. -/
theorem exists_renders (e : Construction) : ∃ x, e.Renders x := by
  induction e with
  | top => exact ⟨.literal .top, rfl, by decide, fun _ => rfl⟩
  | bot => exact ⟨.literal .bot, rfl, by decide, fun _ => rfl⟩
  | literal a s => exact ⟨_, renders_literal a s⟩
  | conj d e ihd ihe =>
      obtain ⟨x, hx⟩ := ihd
      obtain ⟨y, hy⟩ := ihe
      exact ⟨_, hx.conj hy⟩
  | disj d e ihd ihe =>
      obtain ⟨x, hx⟩ := ihd
      obtain ⟨y, hy⟩ := ihe
      exact ⟨_, hx.disj hy⟩
  | imp d e ihd ihe =>
      obtain ⟨x, hx⟩ := ihd
      obtain ⟨y, hy⟩ := ihe
      exact ⟨_, hx.imp hy⟩
  | neg e ih =>
      obtain ⟨x, hx⟩ := ih
      exact ⟨_, hx.neg⟩
  | lift e ih =>
      obtain ⟨x, hx⟩ := ih
      exact ⟨_, hx.lift⟩
  | alone e ih =>
      obtain ⟨x, hx⟩ := ih
      exact ⟨_, hx.alone⟩
  | parts d c e ihd ihe =>
      obtain ⟨x, hx⟩ := ihd
      obtain ⟨y, hy⟩ := ihe
      exact ⟨_, hx.parts c hy⟩

/-- **Construction preserves meaning.**  Every construction can be carried
out, and under every valuation the built formula has the value of the
construction, with atoms outside the alphabet false.  A constant that stands
alone on the left of a conjunction or disjunction is simplified, and the
negation of an implication `X → Y`, however built, is `X` if `Y` is `⊥` and
`(X → Y) → ⊥` if not. -/
theorem build_preserves_meaning (e : Construction) :
    ∃ x, e.build = .ok x ∧
      (∀ v : Valuation, v.satisfies x.toFormula = e.meaning v.value ∧
        ∀ a, a ∉ v.alphabet.atoms → v.value a = false) ∧
      (∀ d : Construction, d.build = .ok (.literal .top) →
        (conj d e).build = .ok (.formula x.toFormula) ∧
        (disj d e).build = .ok (.formula .top)) ∧
      (∀ d : Construction, d.build = .ok (.literal .bot) →
        (conj d e).build = .ok (.formula .bot) ∧
        (disj d e).build = .ok (.formula x.toFormula)) ∧
      ∀ l r, x.toFormula = .node l .implies r →
        (neg e).build = .ok (.formula (if r = .bot then l.toFormula
          else .node (.formula x.toFormula) .implies .bot)) := by
  obtain ⟨x, hx⟩ := e.exists_renders
  refine ⟨x, hx.build_eq, ?_, ?_, ?_, ?_⟩
  · intro v
    constructor
    · rw [Valuation.satisfies, Operand.holds_toFormula, hx.holds_eq]
    · intro a
      exact Valuation.value_of_not_mem
  · intro d hd
    rw [build, build, hd, hx.build_eq]
    exact ⟨rfl, rfl⟩
  · intro d hd
    rw [build, build, hd, hx.build_eq]
    exact ⟨rfl, rfl⟩
  · intro l r hnode
    rw [hx.neg.build_eq, Formula.neg, hnode, Formula.negate_implies]

-- The right side is `⊥` only by its symbol, and the negation still sees it.
example : (neg (imp (literal ⟨"a"⟩ true) (literal ⟨"⊤"⟩ false))).build =
    .ok (.formula (.leaf (.signed ⟨"a"⟩ true))) := by decide

end Construction

end SystemZ
