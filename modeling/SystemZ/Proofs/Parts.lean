/-
  SystemZ.Proofs.Parts
  ────────────────────
  **WHICH PARTS MAKE A FORMULA.**

  A root is made from its parts in two checks.  The first looks at the shape
  alone: a connective needs a right child, and a right child a connective.
  The second looks for literals that use a reserved symbol as an ordinary
  atom, however deep they stand, and of several it reports the least.  What
  passes both is the root with these parts, and a formula comes back from its
  own parts.

  The second check only ever stops literals that somebody wrote by hand.
  Whatever is built from the constants and from atoms under a sign mentions no
  reserved literal, because every way to build keeps it so.

  Main results:
    `Formula.mem_occurrences_iff`   the search reaches every literal
    `Formula.reservedLiteral?_eq_some_iff`   the least one is reported
    `Operand.Buildable.reservedFree`   building brings in none
    `ofParts_accepts_well_formed_trees`
-/
import SystemZ.Conditional
import SystemZ.Proofs.Constructions

namespace SystemZ

/-! ## §1. Literals at any depth. -/

mutual

/-- The literal stands in the operand, at any depth. -/
inductive Operand.Mentions (l : Literal) : Operand → Prop
  | literal : Operand.Mentions l (.literal l)
  | formula {f : Formula} (h : Formula.Mentions l f) :
      Operand.Mentions l (.formula f)

/-- The literal stands in the formula, at any depth. -/
inductive Formula.Mentions (l : Literal) : Formula → Prop
  | single {x : Operand} (h : Operand.Mentions l x) :
      Formula.Mentions l (.single x)
  | left {x : Operand} {c : Connective} {r : Formula}
      (h : Operand.Mentions l x) : Formula.Mentions l (.node x c r)
  | right {x : Operand} {c : Connective} {r : Formula}
      (h : Formula.Mentions l r) : Formula.Mentions l (.node x c r)

end

variable {l : Literal}

mutual

theorem Operand.mem_occurrences_iff : ∀ x : Operand,
    l ∈ x.occurrences ↔ x.Mentions l ∧ l.isConstant = false
  | .literal k => by
      rw [Operand.occurrences]
      constructor
      · intro h
        split at h
        case isTrue => cases h
        case isFalse hk =>
          rw [List.mem_singleton] at h
          subst h
          exact ⟨.literal, Bool.not_eq_true _ ▸ hk⟩
      · intro h
        obtain ⟨h, hl⟩ := h
        cases h with
        | literal => simp [hl]
  | .formula f => by
      rw [Operand.occurrences, Formula.mem_occurrences_iff f]
      constructor
      · intro h
        obtain ⟨h, hl⟩ := h
        exact ⟨.formula h, hl⟩
      · intro h
        obtain ⟨h, hl⟩ := h
        cases h with
        | formula h => exact ⟨h, hl⟩

/-- **The search for literals reaches every depth**, and leaves out the
constants alone. -/
theorem Formula.mem_occurrences_iff : ∀ f : Formula,
    l ∈ f.occurrences ↔ f.Mentions l ∧ l.isConstant = false
  | .single x => by
      rw [Formula.occurrences, Operand.mem_occurrences_iff x]
      constructor
      · intro h
        obtain ⟨h, hl⟩ := h
        exact ⟨.single h, hl⟩
      · intro h
        obtain ⟨h, hl⟩ := h
        cases h with
        | single h => exact ⟨h, hl⟩
  | .node x c r => by
      rw [Formula.occurrences, List.mem_append,
        Operand.mem_occurrences_iff x, Formula.mem_occurrences_iff r]
      constructor
      · intro h
        rcases h with ⟨h, hl⟩ | ⟨h, hl⟩
        · exact ⟨.left h, hl⟩
        · exact ⟨.right h, hl⟩
      · intro h
        obtain ⟨h, hl⟩ := h
        cases h with
        | left h => exact .inl ⟨h, hl⟩
        | right h => exact .inr ⟨h, hl⟩

end

/-- A reserved literal is not a constant. -/
theorem Literal.isConstant_of_isReserved (h : l.isReserved = true) :
    l.isConstant = false := by
  cases l with
  | signed a s => rfl
  | top => cases h
  | bot => cases h

theorem Operand.reservedFree_iff_mentions {x : Operand} :
    x.ReservedFree ↔ ∀ l : Literal, l.isReserved = true → ¬ x.Mentions l := by
  simp only [Operand.ReservedFree, Operand.mem_occurrences_iff]
  constructor
  · intro h l hl hmem
    have hfree := h l ⟨hmem, Literal.isConstant_of_isReserved hl⟩
    rw [hl] at hfree
    cases hfree
  · intro h l hmem
    obtain ⟨hmem, _⟩ := hmem
    rw [← Bool.not_eq_true]
    exact fun hl => h l hl hmem

theorem Operand.mentions_formula_iff {f : Formula} :
    (Operand.formula f).Mentions l ↔ f.Mentions l :=
  ⟨fun h => by cases h with | formula h => exact h, .formula⟩

/-- Lifting an operand to a formula keeps its literals. -/
theorem Operand.mentions_toFormula_iff {x : Operand} :
    x.toFormula.Mentions l ↔ x.Mentions l := by
  cases x with
  | literal k =>
      show (Formula.single (.literal k)).Mentions l ↔ _
      exact ⟨fun h => by cases h with | single h => exact h, .single⟩
  | formula f => exact Operand.mentions_formula_iff.symm

namespace Formula

variable {f : Formula}

/-- **Reserved-free is to mention no reserved literal**, at any depth. -/
theorem reservedFree_iff_mentions :
    f.ReservedFree ↔ ∀ l : Literal, l.isReserved = true → ¬ f.Mentions l := by
  have hoperand := Operand.reservedFree_iff_mentions (x := .formula f)
  simp only [Operand.mentions_formula_iff] at hoperand
  exact hoperand

end Formula

/-! ## §2. The least reserved literal. -/

/-- **A search from the left finds the least**: what passes the test, and is
before all else that does. -/
theorem SortedSet.find?_toList_eq_some_iff {α : Type _} [Ord α]
    [Std.TransOrd α] [Std.LawfulEqOrd α] {s : SortedSet α} {p : α → Bool}
    {a : α} :
    s.toList.find? p = some a ↔ (a ∈ s ∧ p a = true) ∧
      ∀ b ∈ s, p b = true → b ≠ a → compare a b = .lt := by
  have hleast : ∀ a, s.toList.find? p = some a →
      ∀ b ∈ s, p b = true → b ≠ a → compare a b = .lt := by
    intro a h b hb hpb hne
    obtain ⟨_, before, after, hsplit, hbefore⟩ :=
      List.find?_eq_some_iff_append.mp h
    have hsorted := s.sorted
    rw [hsplit, List.pairwise_append, List.pairwise_cons] at hsorted
    rw [mem_def, hsplit, List.mem_append, List.mem_cons] at hb
    rcases hb with hb | hb | hb
    · have hfail := hbefore b hb
      rw [hpb] at hfail
      cases hfail
    · exact absurd hb hne
    · exact hsorted.2.1.1 b hb
  constructor
  · intro h
    exact ⟨⟨List.mem_of_find?_eq_some h, List.find?_some h⟩, hleast a h⟩
  · intro h
    obtain ⟨⟨ha, hpa⟩, hbefore⟩ := h
    cases hfind : s.toList.find? p with
    | none =>
        have hnone := List.find?_eq_none.mp hfind a ha
        exact absurd hpa hnone
    | some b =>
        -- Each of the two would be before the other.
        by_cases hba : b = a
        · rw [hba]
        · have hb := List.mem_of_find?_eq_some hfind
          have hpb := List.find?_some hfind
          have hab := hbefore b hb hpb hba
          have hgt := hleast b hfind a ha hpa (Ne.symm hba)
          rw [Std.OrientedCmp.gt_of_lt hgt] at hab
          cases hab

/-- The literal is reserved and stands in one of the parts of a root. -/
def Literal.Spoils (l : Literal) (x : Operand) (y : Option Operand) : Prop :=
  l.isReserved = true ∧ (x.Mentions l ∨ ∃ z ∈ y, z.Mentions l)

namespace Formula

variable {f : Formula} {x : Operand} {y : Option Operand}

/-- **The reserved literal that is reported is the least one.** -/
theorem reservedLiteral?_eq_some_iff :
    f.reservedLiteral? = some l ↔ (l.isReserved = true ∧ f.Mentions l) ∧
      ∀ k : Literal, k.isReserved = true → f.Mentions k → k ≠ l →
        compare l k = .lt := by
  have hmem : ∀ k : Literal, k.isReserved = true →
      (k ∈ f.literals ↔ f.Mentions k) := by
    intro k hk
    rw [mem_literals, mem_occurrences_iff]
    exact and_iff_left (Literal.isConstant_of_isReserved hk)
  rw [reservedLiteral?, SortedSet.find?_toList_eq_some_iff]
  constructor
  · intro h
    obtain ⟨⟨hl, hres⟩, hleast⟩ := h
    refine ⟨⟨hres, (hmem l hres).mp hl⟩, ?_⟩
    intro k hk hmention
    exact hleast k ((hmem k hk).mpr hmention) hk
  · intro h
    obtain ⟨⟨hres, hl⟩, hleast⟩ := h
    refine ⟨⟨(hmem l hres).mpr hl, hres⟩, ?_⟩
    intro k hmention hk
    exact hleast k hk ((hmem k hk).mp hmention)

/-! ## §3. The two checks. -/

/-- A root mentions what its parts do. -/
theorem mentions_iff_of_assemble {c : Option Connective}
    (h : assemble x c y = .ok f) :
    f.Mentions l ↔ x.Mentions l ∨ ∃ z ∈ y, z.Mentions l := by
  unfold assemble at h
  split at h
  · cases h
    constructor
    · intro hl
      cases hl with
      | single hl => exact .inl hl
    · intro h
      rcases h with hl | ⟨z, hz, _⟩
      · exact .single hl
      · cases hz
  · cases h
    constructor
    · intro hl
      cases hl with
      | left hl => exact .inl hl
      | right hl => exact .inr ⟨_, rfl, Operand.mentions_toFormula_iff.mp hl⟩
    · intro h
      rcases h with hl | ⟨z, hz, hl⟩
      · exact .left hl
      · cases hz
        exact .right (Operand.mentions_toFormula_iff.mpr hl)
  · cases h
  · cases h

variable {c : Option Connective}

/-- The tree has the parts that it was made from. -/
theorem parts_of_assemble (h : assemble x c y = .ok f) :
    f.left = x ∧ f.connective? = c ∧ f.right? = y.map Operand.toFormula := by
  unfold assemble at h
  split at h <;> cases h <;> exact ⟨rfl, rfl, rfl⟩

/-- The shape is right exactly when connective and right part come together. -/
theorem exists_assemble_eq_ok_iff :
    (∃ f, assemble x c y = .ok f) ↔ c.isSome = y.isSome := by
  cases c <;> cases y <;> simp [assemble]

/-- A root is refused for its shape, or else for a reserved literal. -/
theorem ofParts_eq_error_iff {e : FormulaError} :
    ofParts x c y = .error e ↔ assemble x c y = .error e ∨
      ∃ f l, assemble x c y = .ok f ∧ f.reservedLiteral? = some l ∧
        e = .reservedLiteral l := by
  unfold ofParts
  split
  case h_1 e' h => simp [h]
  case h_2 f h =>
    cases hl : f.reservedLiteral? with
    | none => simp [h, hl]
    | some l => simp [h, hl, eq_comm]

/-- **A connective without a right part is reported**, whatever literals there
are. -/
theorem ofParts_eq_missingRight_iff :
    ofParts x c y = .error .missingRight ↔ c.isSome = true ∧ y = none := by
  rw [ofParts_eq_error_iff]
  cases c <;> cases y <;> simp [assemble]

/-- **So is a right part without a connective.** -/
theorem ofParts_eq_missingConnective_iff :
    ofParts x c y = .error .missingConnective ↔
      c = none ∧ y.isSome = true := by
  rw [ofParts_eq_error_iff]
  cases c <;> cases y <;> simp [assemble]

/-- **In a root of the right shape the least reserved literal is reported.** -/
theorem ofParts_eq_reservedLiteral_iff :
    ofParts x c y = .error (.reservedLiteral l) ↔
      c.isSome = y.isSome ∧ l.Spoils x y ∧
        ∀ k : Literal, k.Spoils x y → k ≠ l → compare l k = .lt := by
  -- The shape alone is never a reason for this error.
  have hshape : assemble x c y ≠ .error (.reservedLiteral l) := by
    unfold assemble
    split <;> exact fun h => nomatch h
  rw [ofParts_eq_error_iff, ← exists_assemble_eq_ok_iff]
  constructor
  · intro h
    rcases h with h | ⟨f, k, hf, hk, heq⟩
    · exact absurd h hshape
    · cases heq
      obtain ⟨⟨hres, hl⟩, hleast⟩ := reservedLiteral?_eq_some_iff.mp hk
      refine ⟨⟨f, hf⟩, ⟨hres, (mentions_iff_of_assemble hf).mp hl⟩, ?_⟩
      intro k hk hne
      obtain ⟨hkres, hmention⟩ := hk
      exact hleast k hkres ((mentions_iff_of_assemble hf).mpr hmention) hne
  · intro h
    obtain ⟨⟨f, hf⟩, ⟨hres, hl⟩, hleast⟩ := h
    refine .inr ⟨f, l, hf, reservedLiteral?_eq_some_iff.mpr ?_, rfl⟩
    refine ⟨⟨hres, (mentions_iff_of_assemble hf).mpr hl⟩, ?_⟩
    intro k hkres hmention hne
    exact hleast k ⟨hkres, (mentions_iff_of_assemble hf).mp hmention⟩ hne

/-- No part mentions a reserved literal exactly if the root does not. -/
theorem reservedFree_iff_of_assemble (h : assemble x c y = .ok f) :
    f.ReservedFree ↔ ∀ l : Literal, ¬ l.Spoils x y := by
  rw [reservedFree_iff_mentions]
  simp only [mentions_iff_of_assemble h, Literal.Spoils, not_and]

/-- **A root of the right shape is refused exactly when a reserved literal
stands in one of its parts.** -/
theorem exists_ofParts_eq_reservedLiteral_iff (h : c.isSome = y.isSome) :
    (∃ l, ofParts x c y = .error (.reservedLiteral l)) ↔
      ∃ l : Literal, l.Spoils x y := by
  obtain ⟨f, hf⟩ := exists_assemble_eq_ok_iff.mpr h
  constructor
  · intro h
    obtain ⟨l, hl⟩ := h
    exact ⟨l, (ofParts_eq_reservedLiteral_iff.mp hl).2.1⟩
  · intro h
    obtain ⟨l, hl⟩ := h
    have hspoiled : ¬ f.ReservedFree := fun hfree =>
      (reservedFree_iff_of_assemble hf).mp hfree l hl
    rw [← reservedLiteral?_eq_none_iff, ← ne_eq,
      Option.ne_none_iff_exists'] at hspoiled
    obtain ⟨k, hk⟩ := hspoiled
    exact ⟨k, ofParts_eq_error_iff.mpr (.inr ⟨f, k, hf, hk, rfl⟩)⟩

/-- **What passes both checks is the root with these parts.** -/
theorem exists_ofParts_eq_ok (h : c.isSome = y.isSome)
    (hfree : ∀ l : Literal, ¬ l.Spoils x y) :
    ∃ f, ofParts x c y = .ok f ∧ f.left = x ∧ f.connective? = c ∧
      f.right? = y.map Operand.toFormula := by
  obtain ⟨f, hf⟩ := exists_assemble_eq_ok_iff.mpr h
  exact ⟨f, ofParts_eq_ok hf ((reservedFree_iff_of_assemble hf).mpr hfree),
    parts_of_assemble hf⟩

/-- What comes out has been checked. -/
theorem reservedFree_of_ofParts (h : ofParts x c y = .ok f) :
    f.ReservedFree := by
  rw [← reservedLiteral?_eq_none_iff]
  -- It passed the second check only because the search found nothing.
  unfold ofParts at h
  split at h
  · cases h
  · split at h
    · cases h
    case h_2 hnone =>
      cases h
      exact hnone

/-- **A formula comes back from its own parts.** -/
theorem ofParts_parts (hf : f.ReservedFree) :
    ofParts f.left f.connective? (f.right?.map .formula) = .ok f := by
  have hassemble :
      assemble f.left f.connective? (f.right?.map .formula) = .ok f := by
    cases f <;> rfl
  exact ofParts_eq_ok hassemble hf

end Formula

/-! ## §4. Whatever is built is reserved-free. -/

theorem Formula.ReservedFree.left {f : Formula} (hf : f.ReservedFree) :
    f.left.ReservedFree := by
  cases f with
  | single x => exact hf
  | node x c r => exact (Formula.reservedFree_node.mp hf).1

theorem Formula.ReservedFree.right {f r : Formula} (hf : f.ReservedFree)
    (hr : f.right? = some r) : r.ReservedFree := by
  cases f with
  | single x => cases hr
  | node x c r' =>
      cases hr
      exact (Formula.reservedFree_node.mp hf).2

theorem Conditional.ReservedFree.materialize {s : Conditional}
    (hs : s.ReservedFree) : s.materialize.ReservedFree := by
  unfold Conditional.materialize
  split
  · exact hs.1.negate
  · exact Formula.reservedFree_lifted .implies hs.1 hs.2

mutual

/-- The operands that can be built from the constants and from atoms under a
sign.  A formula counts as the operand that it is. -/
inductive Operand.Buildable : Operand → Prop
  | top : Operand.Buildable (.literal .top)
  | bot : Operand.Buildable (.literal .bot)
  | literal (a : Atom) (sign : Bool) :
      Operand.Buildable (.literal (.ofAtom a sign))
  | leaf {l : Literal} (hl : Operand.Buildable (.literal l)) :
      Operand.Buildable (.formula (.leaf l))
  | lift {x : Operand} (hx : Operand.Buildable x) :
      Operand.Buildable (.formula x.toFormula)
  | parts {x : Operand} {c : Option Connective} {y : Option Operand}
      {f : Formula} (hx : Operand.Buildable x)
      (hy : ∀ z ∈ y, Operand.Buildable z)
      (hf : Formula.ofParts x c y = .ok f) : Operand.Buildable (.formula f)
  | conj {x y : Operand} (hx : Operand.Buildable x)
      (hy : Operand.Buildable y) : Operand.Buildable (.formula (.conj x y))
  | disj {x y : Operand} (hx : Operand.Buildable x)
      (hy : Operand.Buildable y) : Operand.Buildable (.formula (.disj x y))
  | imp {x y : Operand} (hx : Operand.Buildable x)
      (hy : Operand.Buildable y) : Operand.Buildable (.formula (.imp x y))
  | neg {x : Operand} (hx : Operand.Buildable x) :
      Operand.Buildable (.formula (.neg x))
  | left {f : Formula} (hf : Operand.Buildable (.formula f)) :
      Operand.Buildable f.left
  | right {f r : Formula} (hf : Operand.Buildable (.formula f))
      (hr : f.right? = some r) : Operand.Buildable (.formula r)
  | antecedent {s : Conditional} (hs : Conditional.Buildable s) :
      Operand.Buildable (.formula s.antecedent)
  | consequent {s : Conditional} (hs : Conditional.Buildable s) :
      Operand.Buildable (.formula s.consequent)
  | materialize {s : Conditional} (hs : Conditional.Buildable s) :
      Operand.Buildable (.formula s.materialize)

/-- The conditionals that can be built from such operands. -/
inductive Conditional.Buildable : Conditional → Prop
  | normally {x y : Operand} (hx : Operand.Buildable x)
      (hy : Operand.Buildable y) : Conditional.Buildable (.normally x y)
  | classical {x : Operand} (hx : Operand.Buildable x) :
      Conditional.Buildable (.classical x)

end

mutual

/-- **Building brings in no reserved literal.** -/
theorem Operand.Buildable.reservedFree :
    ∀ {x : Operand}, x.Buildable → x.ReservedFree
  | _, .top => by decide
  | _, .bot => by decide
  | _, .literal a s =>
      Operand.reservedFree_literal (Literal.isReserved_ofAtom a s)
  | _, .leaf hl => hl.reservedFree
  | _, .lift hx => Operand.reservedFree_toFormula.mpr hx.reservedFree
  | _, .parts _ _ hf => Formula.reservedFree_of_ofParts hf
  | _, .conj hx hy => Formula.reservedFree_conj hx.reservedFree hy.reservedFree
  | _, .disj hx hy => Formula.reservedFree_disj hx.reservedFree hy.reservedFree
  | _, .imp hx hy =>
      Formula.reservedFree_lifted .implies hx.reservedFree hy.reservedFree
  | _, .neg hx =>
      (Operand.reservedFree_toFormula.mpr hx.reservedFree).negate
  | _, .left hf => Formula.ReservedFree.left hf.reservedFree
  | _, .right hf hr => Formula.ReservedFree.right hf.reservedFree hr
  | _, .antecedent hs => hs.reservedFree.1
  | _, .consequent hs => hs.reservedFree.2
  | _, .materialize hs => hs.reservedFree.materialize

theorem Conditional.Buildable.reservedFree :
    ∀ {s : Conditional}, s.Buildable → s.ReservedFree
  | _, .normally hx hy =>
      ⟨Operand.reservedFree_toFormula.mpr hx.reservedFree,
        Operand.reservedFree_toFormula.mpr hy.reservedFree⟩
  | _, .classical hx =>
      ⟨(Operand.reservedFree_toFormula.mpr hx.reservedFree).negate,
        (by decide : Formula.bot.ReservedFree)⟩

end

/-- Built operands have no literal that a root is refused for. -/
theorem Operand.Buildable.not_spoils {x : Operand} {y : Option Operand}
    (hx : x.Buildable) (hy : ∀ z ∈ y, z.Buildable) : ¬ l.Spoils x y := by
  intro h
  obtain ⟨hl, hmention | ⟨z, hz, hmention⟩⟩ := h
  · exact Operand.reservedFree_iff_mentions.mp hx.reservedFree l hl hmention
  · exact Operand.reservedFree_iff_mentions.mp (hy z hz).reservedFree l hl
      hmention

/-! ## §5. Parts and formulas. -/

/-- **Exactly the well-formed trees are accepted.**  A root with a connective
and no right part, or the other way round, is refused for that, whatever
literals there are.  One of the right shape is refused exactly if a reserved
literal stands in one of its parts at any depth, and the least of them is
reported; if there is none, it becomes the formula that has these parts, the
right one lifted.  A formula without reserved literals comes back from its own
parts.  Whatever is built from constants and from atoms under a sign has no
reserved literal, so a root on it is never refused for one. -/
theorem ofParts_accepts_well_formed_trees :
    (∀ (x : Operand) (c : Option Connective) (y : Option Operand),
      (Formula.ofParts x c y = .error .missingRight ↔
        c.isSome = true ∧ y = none) ∧
      (Formula.ofParts x c y = .error .missingConnective ↔
        c = none ∧ y.isSome = true) ∧
      (c.isSome = y.isSome →
        ((∃ l, Formula.ofParts x c y = .error (.reservedLiteral l)) ↔
          ∃ l : Literal, l.Spoils x y) ∧
        (∀ l : Literal, Formula.ofParts x c y = .error (.reservedLiteral l) ↔
          l.Spoils x y ∧
            ∀ k : Literal, k.Spoils x y → k ≠ l → compare l k = .lt) ∧
        ((∀ l : Literal, ¬ l.Spoils x y) →
          ∃ f, Formula.ofParts x c y = .ok f ∧ f.left = x ∧
            f.connective? = c ∧ f.right? = y.map Operand.toFormula))) ∧
      (∀ f : Formula, (∀ l : Literal, l.isReserved = true → ¬ f.Mentions l) →
        Formula.ofParts f.left f.connective? (f.right?.map .formula) =
          .ok f) ∧
      (∀ f : Formula, (Operand.formula f).Buildable →
        ∀ l : Literal, l.isReserved = true → ¬ f.Mentions l) ∧
      ∀ (x : Operand) (c : Option Connective) (y : Option Operand),
        x.Buildable → (∀ z ∈ y, z.Buildable) →
          ∀ l, Formula.ofParts x c y ≠ .error (.reservedLiteral l) := by
  refine ⟨?_, ?_, ?_, ?_⟩
  · intro x c y
    refine ⟨Formula.ofParts_eq_missingRight_iff,
      Formula.ofParts_eq_missingConnective_iff, ?_⟩
    intro hshape
    refine ⟨Formula.exists_ofParts_eq_reservedLiteral_iff hshape, ?_,
      Formula.exists_ofParts_eq_ok hshape⟩
    intro l
    rw [Formula.ofParts_eq_reservedLiteral_iff]
    exact and_iff_right hshape
  · intro f hf
    exact Formula.ofParts_parts (Formula.reservedFree_iff_mentions.mpr hf)
  · intro f hf
    exact Formula.reservedFree_iff_mentions.mp hf.reservedFree
  · intro x c y hx hy l h
    exact hx.not_spoils hy (Formula.ofParts_eq_reservedLiteral_iff.mp h).2.1

/-- Penguins, and behind them a negated `⊥` as an ordinary atom. -/
def spoiledPenguin : Operand :=
  .formula (.node (.literal (.positive ⟨"p"⟩)) .and
    (.leaf (.signed ⟨Atom.botSymbol⟩ false)))

/-- The symbol `⊤` as an ordinary atom. -/
def fakeTop : Literal := .signed ⟨Atom.topSymbol⟩ true

/-- Sparrows are birds. -/
def sparrowRule : Formula :=
  .imp (.literal (.positive ⟨"s"⟩)) (.literal (.positive ⟨"b"⟩))

theorem ofParts_accepts_sparrows_and_no_spoiled_penguins :
    Formula.ofParts spoiledPenguin none (some (.literal fakeTop)) =
        .error .missingConnective ∧
      Formula.ofParts spoiledPenguin (some .implies)
        (some (.literal fakeTop)) = .error (.reservedLiteral fakeTop) ∧
      (∀ k : Literal, k.Spoils spoiledPenguin (some (.literal fakeTop)) →
        k ≠ fakeTop → compare fakeTop k = .lt) ∧
      (Operand.formula sparrowRule).Buildable ∧
      (∀ l : Literal, l.isReserved = true → ¬ sparrowRule.Mentions l) ∧
      Formula.ofParts sparrowRule.left sparrowRule.connective?
        (sparrowRule.right?.map .formula) = .ok sparrowRule ∧
      (∀ l, Formula.ofParts (.formula sparrowRule) none none ≠
        .error (.reservedLiteral l)) ∧
      ∃ f, Formula.ofParts (.formula sparrowRule) none none = .ok f ∧
        f.left = .formula sparrowRule := by
  obtain ⟨hroots, hparts, hbuilt, hnever⟩ := ofParts_accepts_well_formed_trees
  have hbuildable : (Operand.formula sparrowRule).Buildable :=
    .imp (.literal ⟨"s"⟩ true) (.literal ⟨"b"⟩ true)
  have hfree := hbuilt sparrowRule hbuildable
  have hrefused : Formula.ofParts spoiledPenguin (some .implies)
      (some (.literal fakeTop)) = .error (.reservedLiteral fakeTop) := by decide
  obtain ⟨_, hleast, _⟩ :=
    (hroots spoiledPenguin (some .implies) (some (.literal fakeTop))).2.2 rfl
  obtain ⟨hsome, _, hok⟩ := (hroots (.formula sparrowRule) none none).2.2 rfl
  have hnone := hnever (.formula sparrowRule) none none hbuildable (by simp)
  obtain ⟨f, hf, hleft, _, _⟩ := hok fun l hl => by
    obtain ⟨k, hk⟩ := hsome.mpr ⟨l, hl⟩
    exact hnone k hk
  exact ⟨(hroots _ _ _).2.1.mpr ⟨rfl, rfl⟩, hrefused,
    ((hleast fakeTop).mp hrefused).2, hbuildable, hfree,
    hparts sparrowRule hfree, hnone, f, hf, hleft⟩

end SystemZ
