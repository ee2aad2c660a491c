/-
  SystemZ.Proofs.Renaming
  ───────────────────────
  **OTHER NAMES FOR THE ATOMS.**

  A renaming gives every atom another symbol, different ones for different
  atoms, and no reserved symbol to an atom without one.  It renames literals,
  formulas, conditionals, bases and alphabets; the two constants stay.

  A renamed formula means, under an assignment, what the formula means under
  the assignment read through the renaming.  That is all there is to say of
  formulas of any shape; for strict readings, which negate, it takes that no
  symbol is reserved.

  A renaming need not respect the order of symbols: it moves atoms to other
  positions of an alphabet, and conditionals to other places of a base.

  Main results:
    `Formula.holds_rename`                the truth value of a renamed formula
    `Conditional.holds_materialize_rename`   that of a renamed strict reading
    `Conditional.rename_injective`        a renaming keeps conditionals apart
    `KnowledgeBase.atoms_rename`          the atoms of a renamed base
    `Valuation.exists_isRenamed_right`, `Valuation.exists_isRenamed_left`
-/
import Mathlib.Logic.Function.Basic
import SystemZ.Proofs.Refutation

namespace SystemZ

/-! ## §1. Renamed syntax. -/

/-- Other names for the atoms: different ones stay different, and ordinary
ones ordinary. -/
structure Renaming where
  toFun : Atom → Atom
  injective : toFun.Injective
  isReserved_toFun : ∀ a : Atom, a.isReserved = false →
    (toFun a).isReserved = false

instance : CoeFun Renaming fun _ => Atom → Atom := ⟨Renaming.toFun⟩

section Syntax

variable (σ : Atom → Atom)

/-- The literal on the renamed atom; the constants stay. -/
def Literal.rename : Literal → Literal
  | signed a s => signed (σ a) s
  | top => top
  | bot => bot

mutual

/-- The operand with its atoms renamed. -/
def Operand.rename : Operand → Operand
  | .literal l => .literal (l.rename σ)
  | .formula f => .formula f.rename

/-- The formula with its atoms renamed. -/
def Formula.rename : Formula → Formula
  | .single x => .single x.rename
  | .node x c r => .node x.rename c r.rename

end

/-- The conditional with the atoms of both sides renamed. -/
def Conditional.rename (s : Conditional) : Conditional :=
  ⟨s.antecedent.rename σ, s.consequent.rename σ⟩

/-- The renamed conditionals of a base, in their own order. -/
def KnowledgeBase.rename (kb : KnowledgeBase) : KnowledgeBase :=
  kb.map (Conditional.rename σ)

/-- The renamed atoms of an alphabet, in their own order. -/
def Alphabet.rename (α : Alphabet) : Alphabet :=
  ⟨α.atoms.map σ, Nat.le_trans (SortedSet.size_map_le σ α.atoms) α.size_le⟩

end Syntax

/-! ## §2. Meaning. -/

section Meaning

variable {σ : Atom → Atom} {value : Atom → Bool}

theorem Literal.holds_rename (l : Literal) :
    (l.rename σ).holds value = l.holds (value ∘ σ) := by
  cases l <;> rfl

mutual

theorem Operand.holds_rename : ∀ x : Operand,
    (x.rename σ).holds value = x.holds (value ∘ σ)
  | .literal l => by
      rw [Operand.rename, Operand.holds, Operand.holds, Literal.holds_rename]
  | .formula f => by
      rw [Operand.rename, Operand.holds, Operand.holds, Formula.holds_rename]

/-- **A renamed formula is true where the formula is**, through the
renaming. -/
theorem Formula.holds_rename : ∀ f : Formula,
    (f.rename σ).holds value = f.holds (value ∘ σ)
  | .single x => by
      rw [Formula.rename, Formula.holds, Formula.holds, Operand.holds_rename]
  | .node x c r => by
      rw [Formula.rename, Formula.holds, Formula.holds, Operand.holds_rename,
        Formula.holds_rename]

end

end Meaning

/-! ## §3. Occurring atoms. -/

section Atoms

variable {σ : Atom → Atom}

mutual

theorem Operand.occurrences_rename : ∀ x : Operand,
    (x.rename σ).occurrences = x.occurrences.map (Literal.rename σ)
  | .literal (.signed _ _) => rfl
  | .literal .top => rfl
  | .literal .bot => rfl
  | .formula f => by
      rw [Operand.rename, Operand.occurrences, Operand.occurrences,
        Formula.occurrences_rename]

/-- The literals of a renamed formula are the renamed ones, place by place. -/
theorem Formula.occurrences_rename : ∀ f : Formula,
    (f.rename σ).occurrences = f.occurrences.map (Literal.rename σ)
  | .single x => by
      rw [Formula.rename, Formula.occurrences, Formula.occurrences,
        Operand.occurrences_rename]
  | .node x c r => by
      rw [Formula.rename, Formula.occurrences, Formula.occurrences,
        Operand.occurrences_rename, Formula.occurrences_rename,
        List.map_append]

end

/-- **The atoms of a renamed formula are the renamed atoms.** -/
theorem Formula.atoms_rename (σ : Atom → Atom) (f : Formula) :
    (f.rename σ).atoms = f.atoms.map σ := by
  apply SortedSet.ext
  intro b
  simp only [SortedSet.mem_map, mem_atoms, occurrences_rename, List.mem_map]
  constructor
  · intro h
    obtain ⟨_, ⟨l, hl, rfl⟩, rfl⟩ := h
    -- No constant is listed, and the atom of a signed literal is renamed.
    obtain ⟨a, s, rfl⟩ := f.exists_eq_signed_of_mem hl
    exact ⟨a, ⟨_, hl, rfl⟩, rfl⟩
  · intro h
    obtain ⟨_, ⟨l, hl, rfl⟩, rfl⟩ := h
    obtain ⟨a, s, rfl⟩ := f.exists_eq_signed_of_mem hl
    exact ⟨_, ⟨_, hl, rfl⟩, rfl⟩

theorem Conditional.atoms_rename (σ : Atom → Atom) (s : Conditional) :
    (s.rename σ).atoms = s.atoms.map σ := by
  rw [atoms, atoms, SortedSet.map_union, rename, Formula.atoms_rename,
    Formula.atoms_rename]

namespace KnowledgeBase

variable {kb : KnowledgeBase}

theorem mem_rename {t : Conditional} :
    t ∈ kb.rename σ ↔ ∃ s ∈ kb, s.rename σ = t := SortedSet.mem_map

theorem rename_mem_rename {s : Conditional} (hs : s ∈ kb) :
    s.rename σ ∈ kb.rename σ := mem_rename.mpr ⟨s, hs, rfl⟩

/-- **The atoms of a renamed base are the renamed atoms.** -/
theorem atoms_rename (σ : Atom → Atom) (kb : KnowledgeBase) :
    (kb.rename σ).atoms = kb.atoms.map σ := by
  apply SortedSet.ext
  intro b
  rw [mem_atoms, SortedSet.mem_map]
  constructor
  · intro h
    obtain ⟨_, ht, hb⟩ := h
    obtain ⟨s, hs, rfl⟩ := mem_rename.mp ht
    rw [Conditional.atoms_rename, SortedSet.mem_map] at hb
    obtain ⟨a, ha, rfl⟩ := hb
    exact ⟨a, mem_atoms_of_mem hs ha, rfl⟩
  · intro h
    obtain ⟨a, ha, rfl⟩ := h
    obtain ⟨s, hs, has⟩ := mem_atoms.mp ha
    refine ⟨s.rename σ, rename_mem_rename hs, ?_⟩
    rw [Conditional.atoms_rename, SortedSet.mem_map]
    exact ⟨a, has, rfl⟩

end KnowledgeBase

end Atoms

/-! ## §4. Different conditionals stay different. -/

section Injectivity

variable {σ τ : Atom → Atom}

theorem Literal.rename_rename (h : τ.LeftInverse σ) (l : Literal) :
    (l.rename σ).rename τ = l := by
  cases l with
  | signed a s => rw [rename, rename, h a]
  | top => rfl
  | bot => rfl

mutual

theorem Operand.rename_rename (h : τ.LeftInverse σ) : ∀ x : Operand,
    (x.rename σ).rename τ = x
  | .literal l => congrArg Operand.literal (Literal.rename_rename h l)
  | .formula f => congrArg Operand.formula (Formula.rename_rename h f)

/-- What gives the atoms their names back gives the formula back. -/
theorem Formula.rename_rename (h : τ.LeftInverse σ) : ∀ f : Formula,
    (f.rename σ).rename τ = f
  | .single x => congrArg Formula.single (Operand.rename_rename h x)
  | .node x c r => by
      rw [Formula.rename, Formula.rename, Operand.rename_rename h x,
        Formula.rename_rename h r]

end

/-- **A renaming keeps conditionals apart.** -/
theorem Conditional.rename_injective (hσ : σ.Injective) :
    (Conditional.rename σ).Injective := by
  have hback : (Function.invFun σ).LeftInverse σ :=
    Function.leftInverse_invFun hσ
  have hleft : (Conditional.rename (Function.invFun σ)).LeftInverse
      (Conditional.rename σ) := by
    intro s
    rw [rename, rename, Formula.rename_rename hback,
      Formula.rename_rename hback]
  exact hleft.injective

theorem KnowledgeBase.toSet_rename (σ : Atom → Atom) (kb : KnowledgeBase) :
    (kb.rename σ).toSet = Conditional.rename σ '' kb.toSet :=
  SortedSet.toSet_map _ kb

theorem KnowledgeBase.size_rename (hσ : σ.Injective) (kb : KnowledgeBase) :
    (kb.rename σ).size = kb.size :=
  SortedSet.size_map_of_injective (Conditional.rename_injective hσ)

end Injectivity

/-! ## §5. Reserved symbols and strict readings. -/

section Reserved

variable (σ : Renaming)

theorem Formula.ReservedFree.rename {f : Formula} (h : f.ReservedFree) :
    (f.rename σ).ReservedFree := by
  rw [reservedFree_iff] at h ⊢
  intro b hb
  rw [atoms_rename, SortedSet.mem_map] at hb
  obtain ⟨a, ha, rfl⟩ := hb
  exact σ.isReserved_toFun a (h a ha)

theorem Conditional.ReservedFree.rename {s : Conditional}
    (h : s.ReservedFree) : (s.rename σ).ReservedFree :=
  ⟨h.1.rename σ, h.2.rename σ⟩

theorem KnowledgeBase.ReservedFree.rename {kb : KnowledgeBase}
    (h : kb.ReservedFree) : (kb.rename σ).ReservedFree := by
  intro t ht
  obtain ⟨s, hs, rfl⟩ := mem_rename.mp ht
  exact (h s hs).rename σ

/-- **A renamed strict reading is true where the strict reading is**, through
the renaming. -/
theorem Conditional.holds_materialize_rename {s : Conditional}
    (h : s.ReservedFree) (value : Atom → Bool) :
    (s.rename σ).materialize.holds value =
      s.materialize.holds (value ∘ σ) := by
  rw [holds_materialize (h.rename σ), holds_materialize h]
  simp only [Conditional.rename, Formula.holds_rename]

end Reserved

/-! ## §6. Renamed valuations. -/

namespace Valuation

variable {σ : Renaming} {v w : Valuation} {α : Alphabet}

/-- The valuation `w` of the renamed alphabet makes `σ a` true exactly if `v`
makes `a` true. -/
def IsRenamed (σ : Renaming) (v w : Valuation) : Prop :=
  w.alphabet = v.alphabet.rename σ ∧ ∀ a, w.value (σ a) = v.value a

theorem IsRenamed.value_comp (h : v.IsRenamed σ w) :
    w.value ∘ σ = v.value := funext h.2

theorem IsRenamed.satisfies_rename (h : v.IsRenamed σ w) (f : Formula) :
    w.satisfies (f.rename σ) = v.satisfies f := by
  unfold satisfies
  rw [Formula.holds_rename, h.value_comp]

/-- Outside the alphabets everything is false, so it is enough to compare the
values of the alphabet. -/
theorem isRenamed_of_forall_mem (hw : w.alphabet = v.alphabet.rename σ)
    (h : ∀ a ∈ v.alphabet.atoms, w.value (σ a) = v.value a) :
    v.IsRenamed σ w := by
  refine ⟨hw, ?_⟩
  intro a
  by_cases ha : a ∈ v.alphabet.atoms
  · exact h a ha
  · -- No other atom of the alphabet could have the new name of `a`.
    have hσa : σ a ∉ w.alphabet.atoms := by
      rw [hw]
      intro hmem
      obtain ⟨b, hb, hba⟩ := SortedSet.mem_map.mp hmem
      exact ha (σ.injective hba ▸ hb)
    rw [value_of_not_mem ha, value_of_not_mem hσa]

/-- **Every valuation can be renamed.** -/
theorem exists_isRenamed_right (σ : Renaming) (hv : v.alphabet = α) :
    ∃ w : Valuation, w.alphabet = α.rename σ ∧ v.IsRenamed σ w := by
  obtain ⟨w, hw, hagree⟩ := Valuations.exists_mem_rest_of_assignment
    (α.rename σ) true (v.value ∘ Function.invFun σ)
  have hα : w.alphabet = α.rename σ := Valuations.alphabet_of_mem_rest hw
  refine ⟨w, hα, isRenamed_of_forall_mem (by rw [hα, hv]) ?_⟩
  intro a ha
  have hσa : σ a ∈ (α.rename σ).atoms :=
    SortedSet.mem_map.mpr ⟨a, hv ▸ ha, rfl⟩
  rw [hagree _ hσa, Function.comp_apply,
    Function.leftInverse_invFun σ.injective a]

/-- **Every valuation of a renamed alphabet comes from a renaming.** -/
theorem exists_isRenamed_left (hw : w.alphabet = α.rename σ) :
    ∃ v : Valuation, v.alphabet = α ∧ v.IsRenamed σ w := by
  obtain ⟨v, hv, hagree⟩ :=
    Valuations.exists_mem_rest_of_assignment α true (w.value ∘ σ)
  have hα : v.alphabet = α := Valuations.alphabet_of_mem_rest hv
  refine ⟨v, hα, isRenamed_of_forall_mem (by rw [hα, hw]) ?_⟩
  intro a ha
  exact (hagree a (hα ▸ ha)).symm

end Valuation

end SystemZ
