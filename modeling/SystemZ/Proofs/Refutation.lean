/-
  SystemZ.Proofs.Refutation
  ─────────────────────────
  **WHAT A SET OF CONDITIONALS RULES OUT.**

  A set of conditionals refutes a formula when no assignment makes the formula
  true together with the strict reading of every conditional.  The reasoning
  procedures ask for this as an entailment of the negated formula, which
  negates it once more over an alphabet inferred from what is left.  Both
  detours are harmless: strict readings bring in no new atom, and entailment
  decides consequence.

  Main results:
    `Conditional.mem_atoms_of_materialize`   strict readings bring in no atom
    `refutes_iff_of_alphabet`      refutation over a covering alphabet
    `exists_entails_negate_eq_ok`  entailment of a negation is refutation
-/
import SystemZ.KnowledgeBase
import SystemZ.Proofs.Entailment

namespace SystemZ

/-! ## §1. Conditionals and knowledge bases. -/

/-- The strict reading brings in no atom. -/
theorem Conditional.mem_atoms_of_materialize {s : Conditional} {a : Atom}
    (h : a ∈ s.materialize.atoms) : a ∈ s.atoms := by
  rw [atoms, SortedSet.mem_union]
  unfold materialize at h
  split at h
  -- With the consequent `⊥` the strict reading negates the antecedent.
  case isTrue => exact .inl (Formula.mem_atoms_of_negate h)
  case isFalse =>
    obtain ⟨l, hl, rfl⟩ := Formula.mem_atoms.mp h
    rcases List.mem_append.mp hl with hl | hl
    · exact .inl (Formula.mem_atoms.mpr ⟨l, hl, rfl⟩)
    · exact .inr (Formula.mem_atoms.mpr ⟨l, hl, rfl⟩)

/-- Without reserved symbols it drops none either. -/
theorem Conditional.atoms_materialize {s : Conditional} (h : s.ReservedFree) :
    s.materialize.atoms = s.atoms := by
  unfold materialize
  split
  case isTrue hbot =>
    -- The consequent is `⊥`, which has no atom.
    rw [Formula.atoms_negate h.1, atoms, Formula.isBot_iff.mp hbot]
    rfl
  case isFalse =>
    apply SortedSet.ext
    intro a
    rw [atoms, SortedSet.mem_union, Formula.mem_atoms, Formula.mem_atoms,
      Formula.mem_atoms]
    show (∃ l ∈ s.antecedent.occurrences ++ s.consequent.occurrences,
      l.atom = a) ↔ _
    simp only [List.mem_append, or_and_right, exists_or]

theorem Conditional.mem_atoms_of_antecedent {s : Conditional} {a : Atom}
    (h : a ∈ s.antecedent.atoms) : a ∈ s.atoms :=
  SortedSet.mem_union.mpr (.inl h)

namespace KnowledgeBase

variable {kb : KnowledgeBase}

theorem mem_atoms {a : Atom} : a ∈ kb.atoms ↔ ∃ s ∈ kb, a ∈ s.atoms := by
  simp [atoms]

theorem mem_atoms_of_mem {s : Conditional} {a : Atom} (hs : s ∈ kb)
    (ha : a ∈ s.atoms) : a ∈ kb.atoms := mem_atoms.mpr ⟨s, hs, ha⟩

theorem mem_atoms_union {kb' : KnowledgeBase} {a : Atom} :
    a ∈ atoms (kb.union kb') ↔ a ∈ kb.atoms ∨ a ∈ kb'.atoms := by
  simp only [mem_atoms, SortedSet.mem_union, or_and_right, exists_or]

theorem mem_materialized {f : Formula} :
    f ∈ kb.materialized ↔ ∃ s ∈ kb, s.materialize = f := SortedSet.mem_map

/-- No conditional uses a reserved symbol as an ordinary atom. -/
def ReservedFree (kb : KnowledgeBase) : Prop := ∀ s ∈ kb, s.ReservedFree

instance : Decidable kb.ReservedFree :=
  inferInstanceAs (Decidable (∀ s ∈ kb.toList, s.ReservedFree))

theorem mem_atoms_of_subset {sub : KnowledgeBase} (h : ∀ s ∈ sub, s ∈ kb)
    {a : Atom} (ha : a ∈ sub.atoms) : a ∈ kb.atoms := by
  obtain ⟨s, hs, has⟩ := mem_atoms.mp ha
  exact mem_atoms.mpr ⟨s, h s hs, has⟩

end KnowledgeBase

/-! ## §2. Refutation. -/

/-- No assignment makes `φ` true together with every strict reading of a set
of conditionals. -/
def Refutes (base : Set Conditional) (φ : Formula) : Prop :=
  ¬ ∃ value : Atom → Bool,
    φ.holds value = true ∧ ∀ s ∈ base, s.materialize.holds value = true

/-- More conditionals rule out more. -/
theorem Refutes.mono {base base' : Set Conditional} {φ : Formula}
    (hsub : base ⊆ base') (h : Refutes base φ) : Refutes base' φ := by
  intro hmet
  obtain ⟨value, hφ, hbase⟩ := hmet
  exact h ⟨value, hφ, fun s hs => hbase s (hsub hs)⟩

/-- Over an alphabet that covers them, valuations are assignments enough. -/
theorem refutes_iff_of_alphabet {base : Set Conditional} {φ : Formula}
    {α : Alphabet} (hφ : ∀ a ∈ φ.atoms, a ∈ α.atoms)
    (hbase : ∀ s ∈ base, ∀ a ∈ s.atoms, a ∈ α.atoms) :
    Refutes base φ ↔ ¬ ∃ u : Valuation, u.alphabet = α ∧
      u.satisfies φ = true ∧
      ∀ s ∈ base, u.satisfies s.materialize = true := by
  rw [Refutes, not_iff_not]
  constructor
  · intro h
    obtain ⟨value, hvalue, hstrict⟩ := h
    obtain ⟨u, hu, hagree⟩ :=
      Valuations.exists_mem_rest_of_assignment α true value
    have hread : ∀ f : Formula, (∀ a ∈ f.atoms, a ∈ α.atoms) →
        u.satisfies f = f.holds value := by
      intro f hf
      exact Formula.holds_congr fun a ha => hagree a (hf a ha)
    refine ⟨u, Valuations.alphabet_of_mem_rest hu, ?_, ?_⟩
    · rw [hread φ hφ, hvalue]
    · intro s hs
      have hs' : ∀ a ∈ s.materialize.atoms, a ∈ α.atoms := fun a ha =>
        hbase s hs a (Conditional.mem_atoms_of_materialize ha)
      rw [hread _ hs', hstrict s hs]
  · intro h
    obtain ⟨u, _, hsat, hstrict⟩ := h
    exact ⟨u.value, hsat, hstrict⟩

/-- What refutes a formula has its negation as a consequence. -/
theorem consequence_negate_iff {base : Set Conditional} {φ : Formula}
    {fs : List Formula}
    (hbase : ∀ f, f ∈ fs ↔ ∃ c ∈ base, c.materialize = f)
    (hφ : φ.ReservedFree) : Consequence fs φ.negate ↔ Refutes base φ := by
  have hstrict : ∀ value : Atom → Bool, (∀ f ∈ fs, f.holds value = true) ↔
      ∀ c ∈ base, c.materialize.holds value = true := by
    intro value
    constructor
    · intro h c hc
      exact h _ ((hbase _).mpr ⟨c, hc, rfl⟩)
    · intro h f hf
      obtain ⟨c, hc, rfl⟩ := (hbase f).mp hf
      exact h c hc
  rw [Consequence, Refutes, not_exists]
  simp only [hstrict, Formula.holds_negate φ hφ, Bool.not_eq_true',
    ← Bool.not_eq_true, not_and']

/-- **Entailment of a negation is refutation**, for strict readings and a
reserved-free formula whose atoms fit an alphabet together. -/
theorem exists_entails_negate_eq_ok {base : Set Conditional} {φ : Formula}
    {fs : List Formula} {s : SortedSet Atom}
    (hbase : ∀ f, f ∈ fs ↔ ∃ c ∈ base, c.materialize = f)
    (hφ : φ.ReservedFree) (hsize : s.size ≤ maxAlphabetSize)
    (hφs : ∀ a ∈ φ.atoms, a ∈ s)
    (hbases : ∀ c ∈ base, ∀ a ∈ c.atoms, a ∈ s) :
    ∃ b, entails fs φ.negate = .ok b ∧ (b = true ↔ Refutes base φ) := by
  have hatoms : ∀ f ∈ fs ++ [φ.negate], ∀ a ∈ f.atoms, a ∈ s := by
    intro f hf a ha
    rcases List.mem_append.mp hf with hf | hf
    · obtain ⟨c, hc, rfl⟩ := (hbase f).mp hf
      exact hbases c hc a (Conditional.mem_atoms_of_materialize ha)
    · rw [List.mem_singleton.mp hf] at ha
      exact hφs a (Formula.mem_atoms_of_negate ha)
  rw [← consequence_negate_iff hbase hφ]
  exact exists_entails_eq_ok hφ.negate
    (Nat.le_trans (size_occurringAtoms_le hatoms) hsize)

end SystemZ
