/-
  SystemZ.Proofs.Negation
  ───────────────────────
  **WHAT NEGATION DOES TO THE ATOMS OF A FORMULA.**

  Negation may drop an atom, when a reserved symbol turns into a constant,
  but it never brings one in.  Whether a formula is reserved-free can be read
  off its atoms, so the negation of a reserved-free formula is reserved-free,
  and negating it once more gives the meaning back.

  Main results:
    `Formula.mem_atoms_of_negate`   negation brings in no atom
    `Formula.reservedFree_iff`      being reserved-free is a matter of atoms
    `Formula.atoms_negate`          then negation drops no atom either
    `Formula.holds_negate_negate`   negating twice keeps the meaning
    `Formula.holds_neg`             the negation of an operand
-/
import SystemZ.Formula.Meaning

namespace SystemZ

/-! ## §1. Negation keeps to the atoms of a formula. -/

@[simp] theorem Operand.occurrences_toFormula (x : Operand) :
    x.toFormula.occurrences = x.occurrences := by
  cases x <;>
    simp [toFormula, Formula.leaf, Formula.occurrences, Operand.occurrences]

/-- A negated literal has the same atom, unless it is a constant. -/
theorem Literal.atom_negate {l : Literal} (h : l.negate.isConstant = false) :
    l.isConstant = false ∧ l.negate.atom = l.atom := by
  cases l with
  | signed a s =>
      refine ⟨rfl, ?_⟩
      simp only [negate, ofAtom] at h ⊢
      split
      case isTrue hres =>
        -- A reserved symbol would have given a constant.
        rw [if_pos hres] at h
        split at h <;> cases h
      case isFalse => rfl
  | top => cases h
  | bot => cases h

mutual

theorem Operand.exists_mem_occurrences_of_negate {l : Literal} :
    ∀ x : Operand, l ∈ x.negate.occurrences →
      ∃ k ∈ x.occurrences, k.atom = l.atom
  | .literal k, h => by
      rw [Operand.negate, Operand.occurrences] at h
      split at h
      case isTrue => cases h
      case isFalse hconst =>
        rw [List.mem_singleton] at h
        subst h
        obtain ⟨hk, hatom⟩ := Literal.atom_negate (Bool.not_eq_true _ ▸ hconst)
        exact ⟨k, by simp [Operand.occurrences, hk], hatom.symm⟩
  | .formula f, h => Formula.exists_mem_occurrences_of_negate f h

theorem Formula.exists_mem_occurrences_of_negate {l : Literal} :
    ∀ f : Formula, l ∈ f.negate.occurrences →
      ∃ k ∈ f.occurrences, k.atom = l.atom
  | .single x, h => Operand.exists_mem_occurrences_of_negate x h
  | .node x .and r, h | .node x .or r, h => by
      rw [Formula.negate, Formula.occurrences, List.mem_append] at h
      rcases h with h | h
      · obtain ⟨k, hk, hatom⟩ := Operand.exists_mem_occurrences_of_negate x h
        exact ⟨k, List.mem_append_left _ hk, hatom⟩
      · obtain ⟨k, hk, hatom⟩ := Formula.exists_mem_occurrences_of_negate r h
        exact ⟨k, List.mem_append_right _ hk, hatom⟩
  | .node x .implies r, h => by
      rw [Formula.negate] at h
      split at h
      case isTrue =>
        rw [Operand.occurrences_toFormula] at h
        exact ⟨l, List.mem_append_left _ h, rfl⟩
      case isFalse =>
        -- `F → ⊥` has the literals of `F` alone.
        rw [Formula.occurrences, Operand.occurrences, List.mem_append] at h
        rcases h with h | h
        · exact ⟨l, h, rfl⟩
        · cases h

end

/-- **Negation brings in no atom.** -/
theorem Formula.mem_atoms_of_negate {f : Formula} {a : Atom}
    (h : a ∈ f.negate.atoms) : a ∈ f.atoms := by
  obtain ⟨l, hl, rfl⟩ := Formula.mem_atoms.mp h
  obtain ⟨k, hk, hatom⟩ := f.exists_mem_occurrences_of_negate hl
  exact Formula.mem_atoms.mpr ⟨k, hk, hatom⟩

/-! ## §2. Reserved-free formulas, by their atoms. -/

mutual

theorem Operand.exists_eq_signed_of_mem {l : Literal} :
    ∀ x : Operand, l ∈ x.occurrences → ∃ a s, l = .signed a s
  | .literal (.signed a s), h => by
      rw [List.mem_singleton.mp h]
      exact ⟨a, s, rfl⟩
  | .literal .top, h => by cases h
  | .literal .bot, h => by cases h
  | .formula f, h => Formula.exists_eq_signed_of_mem f h

/-- Constants are not among the occurring literals. -/
theorem Formula.exists_eq_signed_of_mem {l : Literal} :
    ∀ f : Formula, l ∈ f.occurrences → ∃ a s, l = .signed a s
  | .single x, h => Operand.exists_eq_signed_of_mem x h
  | .node x _ r, h => by
      rcases List.mem_append.mp h with h | h
      · exact Operand.exists_eq_signed_of_mem x h
      · exact Formula.exists_eq_signed_of_mem r h

end

namespace Formula

/-- **A formula is reserved-free exactly when none of its atoms is reserved.** -/
theorem reservedFree_iff {f : Formula} :
    f.ReservedFree ↔ ∀ a ∈ f.atoms, a.isReserved = false := by
  constructor
  · intro h a ha
    obtain ⟨l, hl, rfl⟩ := mem_atoms.mp ha
    obtain ⟨b, s, rfl⟩ := f.exists_eq_signed_of_mem hl
    exact h _ hl
  · intro h l hl
    obtain ⟨b, s, rfl⟩ := f.exists_eq_signed_of_mem hl
    exact h b (mem_atoms.mpr ⟨_, hl, rfl⟩)

theorem ReservedFree.negate {f : Formula} (h : f.ReservedFree) :
    f.negate.ReservedFree := by
  rw [reservedFree_iff] at h ⊢
  intro a ha
  exact h a (mem_atoms_of_negate ha)

end Formula

mutual

theorem Operand.map_atom_occurrences_negate : ∀ x : Operand, x.ReservedFree →
    x.negate.occurrences.map Literal.atom = x.occurrences.map Literal.atom
  | .literal (.signed a s), h => by
      have hordinary : a.isReserved = false := h _ (.head _)
      rw [Operand.negate, Literal.negate,
        Literal.ofAtom_of_not_reserved hordinary]
      rfl
  | .literal .top, _ => rfl
  | .literal .bot, _ => rfl
  | .formula f, h => Formula.map_atom_occurrences_negate f h

/-- The negation of a reserved-free formula mentions the same atoms in the same
order. -/
theorem Formula.map_atom_occurrences_negate : ∀ f : Formula, f.ReservedFree →
    f.negate.occurrences.map Literal.atom = f.occurrences.map Literal.atom
  | .single x, h => Operand.map_atom_occurrences_negate x h
  | .node x .and r, h | .node x .or r, h => by
      obtain ⟨hx, hr⟩ := Formula.reservedFree_node.mp h
      rw [Formula.negate, Formula.occurrences, Formula.occurrences,
        List.map_append, List.map_append,
        Operand.map_atom_occurrences_negate x hx,
        Formula.map_atom_occurrences_negate r hr]
  | .node x .implies r, _ => by
      rw [Formula.negate]
      split
      case isTrue hr =>
        rw [Operand.occurrences_toFormula, Formula.occurrences,
          Formula.isBot_iff.mp hr]
        exact congrArg (List.map Literal.atom) (List.append_nil _).symm
      case isFalse =>
        -- `F → ⊥` has the literals of `F` alone.
        exact congrArg (List.map Literal.atom) (List.append_nil _)

end

namespace Formula

/-- **Without reserved symbols negation drops no atom.** -/
theorem atoms_negate {f : Formula} (h : f.ReservedFree) :
    f.negate.atoms = f.atoms := by
  apply SortedSet.ext
  intro a
  rw [mem_atoms, mem_atoms, ← List.mem_map, ← List.mem_map,
    map_atom_occurrences_negate f h]

theorem holds_negate_negate {f : Formula} (h : f.ReservedFree)
    (value : Atom → Bool) : f.negate.negate.holds value = f.holds value := by
  rw [holds_negate _ h.negate, holds_negate _ h, Bool.not_not]

theorem holds_neg {x : Operand} (hx : x.toFormula.ReservedFree)
    (value : Atom → Bool) : (neg x).holds value = !x.holds value := by
  rw [neg, holds_negate _ hx, Operand.holds_toFormula]

end Formula

end SystemZ
