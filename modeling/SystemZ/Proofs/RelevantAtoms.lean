/-
  SystemZ.Proofs.RelevantAtoms
  ────────────────────────────
  **A FORMULA IS READ AT ITS ATOMS ALONE, AND SO IS ITS NEGATION.**

  Two valuations that give the atoms of a formula the same values give the
  formula the same value, whatever alphabets they are over: an alphabet that is
  inferred from formulas leaves out nothing that matters.  A search for a
  counterexample looks at the negation of a formula instead, so the negation
  must not look further than the formula does, and should not look less far.

  It never looks further.  What it may lose are reserved symbols that stood as
  ordinary atoms, because these turn into constants on the way.  Every other
  atom keeps its place: pushed through a connective, kept under `F → ⊥`, or set
  free when that is taken off.

  Main results:
    `Formula.ordinaryAtoms_negate`   the other atoms stay, in their order
    `Formula.mem_atoms_negate`       so negation drops reserved symbols alone
    `atoms_decide_truth`
-/
import SystemZ.Proofs.Parts

namespace SystemZ

/-! ## §1. Atoms that negation keeps. -/

/-- The atoms of some literals, reserved symbols left out. -/
def ordinaryAtoms (ls : List Literal) : List Atom :=
  (ls.map Literal.atom).filter fun a => !a.isReserved

theorem ordinaryAtoms_append (ks ls : List Literal) :
    ordinaryAtoms (ks ++ ls) = ordinaryAtoms ks ++ ordinaryAtoms ls := by
  unfold ordinaryAtoms
  rw [List.map_append, List.filter_append]

theorem mem_ordinaryAtoms {ls : List Literal} {a : Atom} :
    a ∈ ordinaryAtoms ls ↔
      (∃ l ∈ ls, l.atom = a) ∧ a.isReserved = false := by
  unfold ordinaryAtoms
  rw [List.mem_filter, List.mem_map, Bool.not_eq_true']

mutual

theorem Operand.ordinaryAtoms_negate : ∀ x : Operand,
    ordinaryAtoms x.negate.occurrences = ordinaryAtoms x.occurrences
  | .literal (.signed a s) => by
      show ordinaryAtoms (Operand.literal (.ofAtom a (!s))).occurrences = _
      by_cases hres : a.isReserved = true
      · -- The symbol is gone after the negation, and did not count before.
        have hconst : (Literal.ofAtom a (!s)).isConstant = true := by
          unfold Literal.ofAtom
          rw [if_pos hres]
          split <;> rfl
        rw [Operand.occurrences, if_pos hconst]
        simp [Operand.occurrences, Literal.isConstant, ordinaryAtoms,
          Literal.atom, hres]
      · rw [Literal.ofAtom_of_not_reserved (Bool.not_eq_true _ ▸ hres)]
        rfl
  | .literal .top => rfl
  | .literal .bot => rfl
  | .formula f => Formula.ordinaryAtoms_negate f

/-- **Ordinary atoms stay**, in their order and as often as they occur. -/
theorem Formula.ordinaryAtoms_negate : ∀ f : Formula,
    ordinaryAtoms f.negate.occurrences = ordinaryAtoms f.occurrences
  | .single x => Operand.ordinaryAtoms_negate x
  | .node x .and r | .node x .or r => by
      rw [Formula.negate, Formula.occurrences, Formula.occurrences,
        ordinaryAtoms_append, ordinaryAtoms_append,
        Operand.ordinaryAtoms_negate x, Formula.ordinaryAtoms_negate r]
  | .node x .implies r => by
      rw [Formula.negate]
      split
      case isTrue hr =>
        -- `⊥` had no atom to add to those of the left side.
        rw [Operand.occurrences_toFormula, Formula.occurrences,
          Formula.isBot_iff.mp hr]
        exact congrArg ordinaryAtoms (List.append_nil _).symm
      case isFalse =>
        exact congrArg ordinaryAtoms (List.append_nil _)

end

namespace Formula

variable {f : Formula} {a : Atom}

/-- **Negation drops reserved symbols alone.** -/
theorem mem_atoms_negate (h : a.isReserved = false) :
    a ∈ f.negate.atoms ↔ a ∈ f.atoms := by
  have hmem : ∀ g : Formula,
      a ∈ g.atoms ↔ a ∈ ordinaryAtoms g.occurrences := by
    intro g
    rw [mem_atoms, mem_ordinaryAtoms, and_iff_left h]
  rw [hmem, hmem, ordinaryAtoms_negate f]

end Formula

/-! ## §2. Atoms and truth. -/

/-- **The atoms of a formula decide its truth.**  Valuations over any
alphabets, if they give the atoms of a formula the same values, give the
formula the same value, whatever literals stand in it.  Its negation has no
atom that the formula does not have, and it has all of them but reserved
symbols; so it has the same atoms if no literal of the formula, at any depth,
uses a reserved symbol as an ordinary atom. -/
theorem atoms_decide_truth (f : Formula) :
    (∀ v w : Valuation, (∀ a ∈ f.atoms, v.value a = w.value a) →
      v.satisfies f = w.satisfies f) ∧
    (∀ a ∈ f.negate.atoms, a ∈ f.atoms) ∧
    (∀ a ∈ f.atoms, a ∉ f.negate.atoms → a.isReserved = true) ∧
    ((∀ l : Literal, l.isReserved = true → ¬ f.Mentions l) →
      f.negate.atoms = f.atoms) := by
  refine ⟨?_, ?_, ?_, ?_⟩
  · intro v w hvalue
    exact Valuation.satisfies_congr hvalue
  · intro a ha
    exact Formula.mem_atoms_of_negate ha
  · intro a ha hdropped
    by_contra hordinary
    rw [Bool.not_eq_true] at hordinary
    exact hdropped ((Formula.mem_atoms_negate hordinary).mpr ha)
  · intro hfree
    exact Formula.atoms_negate (Formula.reservedFree_iff_mentions.mpr hfree)

/-- A bird, and no flying one. -/
def groundedBird : Formula :=
  .conj (.literal (.positive ⟨"b"⟩)) (.literal (.negative ⟨"f"⟩))

/-- The same with the symbol `⊤` beside it as an ordinary atom. -/
def spoiledBird : Formula :=
  .node (.formula groundedBird) .or (.leaf (.signed ⟨Atom.topSymbol⟩ true))

/-- A penguin that is a bird, where flying is spoken of. -/
def walkingPenguin : Valuation :=
  .complete ⟨.ofList [⟨"b"⟩, ⟨"f"⟩, ⟨"p"⟩], by decide⟩ 5 (by decide)

/-- A bird, where flying is not spoken of. -/
def bareBird : Valuation :=
  .positive ⟨.ofList [⟨"b"⟩], by decide⟩ 1 (by decide)

theorem atoms_decide_truth_of_birds :
    (∀ a ∈ groundedBird.atoms, walkingPenguin.value a = bareBird.value a) ∧
      walkingPenguin.satisfies groundedBird =
        bareBird.satisfies groundedBird ∧
      walkingPenguin.satisfies groundedBird = true ∧
      (∀ l : Literal, l.isReserved = true → ¬ groundedBird.Mentions l) ∧
      groundedBird.negate.atoms = groundedBird.atoms ∧
      (⟨Atom.topSymbol⟩ : Atom) ∈ spoiledBird.atoms ∧
      (⟨Atom.topSymbol⟩ : Atom) ∉ spoiledBird.negate.atoms ∧
      (⟨Atom.topSymbol⟩ : Atom).isReserved = true := by
  obtain ⟨htruth, _, _, hsame⟩ := atoms_decide_truth groundedBird
  obtain ⟨_, _, hdropped, _⟩ := atoms_decide_truth spoiledBird
  have hvalue : ∀ a ∈ groundedBird.atoms,
      walkingPenguin.value a = bareBird.value a := by decide
  have hfree : ∀ l : Literal, l.isReserved = true →
      ¬ groundedBird.Mentions l :=
    Formula.reservedFree_iff_mentions.mp (by decide)
  have hbefore : (⟨Atom.topSymbol⟩ : Atom) ∈ spoiledBird.atoms :=
    SortedSet.contains_iff.mp (by decide)
  have hafter : (⟨Atom.topSymbol⟩ : Atom) ∉ spoiledBird.negate.atoms :=
    SortedSet.contains_eq_false_iff.mp (by decide)
  exact ⟨hvalue, htruth _ _ hvalue, by decide, hfree, hsame hfree, hbefore,
    hafter, hdropped _ hbefore hafter⟩

end SystemZ
