/-
  SystemZ.Proofs.ModelLists
  ─────────────────────────
  **SATISFIABILITY AND VALIDITY ARE READ OFF THE LIST OF MODELS.**

  Over a given alphabet, whether or not it has all atoms of the formulas, the
  models are listed in increasing order, each once.  Some formulas are
  satisfiable when the list is not empty, and valid when nothing is missing
  from it.

  An alphabet argument stands for a set of assignments: those of its
  valuations, in which atoms from outside are false, or, where the alphabet is
  inferred, all assignments there are.  Every question is a question about
  that set.  So validity can be checked formula by formula, by refuting each
  negation, although each such check may infer an alphabet of its own.

  Main results:
    `pairwise_toList`          models come in increasing order
    `exists_satisfiable_eq_ok_scope`, `exists_valid_eq_ok_scope`
    `exists_unsatisfiable_negate_eq_ok`   one formula, by its negation
    `questions_agree_on_models`
-/
import SystemZ.Proofs.ExtraAtoms
import SystemZ.Proofs.ValuationOrder

namespace SystemZ

/-! ## §1. The list of models. -/

namespace Models

variable {fs : List Formula} {α : Alphabet} {complete : Bool} {v : Valuation}

/-- **Models come in increasing order**, so none comes twice. -/
theorem pairwise_toList (m : Models) :
    m.toList.Pairwise fun v w => compare v w = .lt :=
  m.candidates.pairwise_rest.filter _

/-- Exactly the valuations of the alphabet that make the formulas true come. -/
theorem yields_iff_satisfies :
    Models.Yields ⟨fs, α.valuations complete⟩ v ↔
      v.alphabet = α ∧ ∀ f ∈ fs, v.satisfies f = true := by
  have halphabet : Models.Yields ⟨fs, α.valuations complete⟩ v →
      v.alphabet = α := by
    intro h
    obtain ⟨u, hu, hbeq⟩ := h
    have hα : u.alphabet = α :=
      Valuations.alphabet_of_mem_rest (List.mem_filter.mp hu).1
    exact (Valuation.beq_iff.mp hbeq).2 ▸ hα
  constructor
  · intro h
    have hα := halphabet h
    exact ⟨hα, Valuation.satisfiesAll_iff.mp ((yields_iff hα).mp h)⟩
  · intro h
    obtain ⟨hα, hsat⟩ := h
    exact (yields_iff hα).mpr (Valuation.satisfiesAll_iff.mpr hsat)

/-- There is a next model exactly when the list is not empty. -/
theorem isSome_next?_iff_toList_ne_nil (m : Models) :
    m.next?.isSome = true ↔ m.toList ≠ [] := by
  rw [toList_eq]
  cases m.next? <;> simp

end Models

/-- All valuations pass exactly when as many models are listed as there are
valuations. -/
theorem Valuations.all_satisfiesAll_iff {fs : List Formula} {α : Alphabet}
    {complete : Bool} :
    ((α.valuations complete).all fun v => v.satisfiesAll fs) = true ↔
      (Models.toList ⟨fs, α.valuations complete⟩).length = 2 ^ α.size := by
  rw [Valuations.all_iff, ← Nat.one_shiftLeft,
    ← length_rest_valuations α complete]
  exact List.length_filter_eq_length_iff.symm

/-! ## §2. What an alphabet argument stands for. -/

/-- The assignments that an alphabet argument stands for. -/
def scope : Option Alphabet → Set (Atom → Bool)
  | some α => {value | ∃ v : Valuation, v.alphabet = α ∧ v.value = value}
  | none => Set.univ

/-- If the alphabet is to be inferred, the atoms of the formulas fit one. -/
def Fits (given : Option Alphabet) (fs : List Formula) : Prop :=
  given = none → (occurringAtoms fs).size ≤ maxAlphabetSize

/-- The scope of an alphabet is what an enumeration lists. -/
theorem mem_scope_some_iff {α : Alphabet} (complete : Bool)
    {value : Atom → Bool} :
    value ∈ scope (some α) ↔
      ∃ v ∈ (α.valuations complete).rest, v.value = value := by
  constructor
  · intro h
    obtain ⟨v, hv, hvalue⟩ := h
    obtain ⟨w, hw, hsame⟩ :=
      Valuations.exists_mem_rest_of_alphabet complete hv
    exact ⟨w, hw, hsame.trans hvalue⟩
  · intro h
    obtain ⟨v, hv, hvalue⟩ := h
    exact ⟨v, Valuations.alphabet_of_mem_rest hv, hvalue⟩

section Questions

variable {fs : List Formula} {given : Option Alphabet} {f : Formula}

/-- The alphabet of a question: the given one, or that of the atoms. -/
theorem Fits.exists_orOfFormulas_eq_ok (h : Fits given fs) :
    ∃ α, Alphabet.orOfFormulas given fs = .ok α ∧
      (given = some α ∨ given = none ∧ α.atoms = occurringAtoms fs) := by
  cases given with
  | some α => exact ⟨α, rfl, .inl rfl⟩
  | none =>
      refine ⟨⟨occurringAtoms fs, h rfl⟩, ?_, .inr ⟨rfl, rfl⟩⟩
      rw [Alphabet.orOfFormulas, Alphabet.ofFormulas_eq, Alphabet.ofSet,
        dif_pos (h rfl)]

/-- The negation of one formula fits where all formulas do. -/
theorem Fits.negate (h : Fits given fs) (hf : f ∈ fs) :
    Fits given [f.negate] := by
  intro hnone
  refine Nat.le_trans (size_occurringAtoms_le ?_) (h hnone)
  intro g hg a ha
  rw [List.mem_singleton.mp hg] at ha
  exact mem_occurringAtoms.mpr ⟨f, hf, Formula.mem_atoms_of_negate ha⟩

/-- **Satisfiability asks for one assignment of the scope.** -/
theorem exists_satisfiable_eq_ok_scope (h : Fits given fs) :
    ∃ b, satisfiable fs given = .ok b ∧
      (b = true ↔ ∃ value ∈ scope given, ∀ f ∈ fs, f.holds value = true) := by
  cases given with
  | none =>
      obtain ⟨b, hb, hiff⟩ := exists_satisfiable_eq_ok (h rfl)
      refine ⟨b, hb, hiff.trans ?_⟩
      simp only [scope, Set.mem_univ, true_and]
  | some α =>
      refine ⟨_, rfl, Models.isSome_next?_iff.trans ?_⟩
      constructor
      · intro hsome
        obtain ⟨v, hv, hsat⟩ := hsome
        exact ⟨v.value, (mem_scope_some_iff false).mpr ⟨v, hv, rfl⟩,
          Valuation.satisfiesAll_iff.mp hsat⟩
      · intro hsome
        obtain ⟨value, hvalue, hsat⟩ := hsome
        obtain ⟨v, hv, rfl⟩ := (mem_scope_some_iff false).mp hvalue
        exact ⟨v, hv, Valuation.satisfiesAll_iff.mpr hsat⟩

/-- **Validity asks for all of them.** -/
theorem exists_valid_eq_ok_scope (h : Fits given fs) :
    ∃ c, valid fs given = .ok c ∧
      (c = true ↔ ∀ value ∈ scope given, ∀ f ∈ fs, f.holds value = true) := by
  cases given with
  | none =>
      -- The inferred alphabet covers the formulas.
      let α : Alphabet := ⟨occurringAtoms fs, h rfl⟩
      have hα : α.Covers fs := fun f hf a ha =>
        mem_occurringAtoms.mpr ⟨f, hf, ha⟩
      obtain ⟨c, hc, hiff⟩ := exists_valid_some_eq_ok hα
      refine ⟨c, (answers_none_eq hα).2.trans hc, hiff.trans ?_⟩
      simp only [scope, Set.mem_univ, true_implies]
  | some α =>
      refine ⟨_, rfl, Valuations.all_iff.trans ?_⟩
      constructor
      · intro hall value hvalue
        obtain ⟨v, hv, rfl⟩ := (mem_scope_some_iff false).mp hvalue
        exact Valuation.satisfiesAll_iff.mp (hall v hv)
      · intro hall v hv
        exact Valuation.satisfiesAll_iff.mpr
          (hall v.value ((mem_scope_some_iff false).mpr ⟨v, hv, rfl⟩))

/-- **Refuting the negation asks whether a formula is always true.** -/
theorem exists_unsatisfiable_negate_eq_ok (h : Fits given [f.negate])
    (hf : f.ReservedFree) :
    ∃ b, unsatisfiable [f.negate] given = .ok b ∧
      (b = true ↔ ∀ value ∈ scope given, f.holds value = true) := by
  obtain ⟨b, hb, hiff⟩ := exists_satisfiable_eq_ok_scope h
  refine ⟨!b, by rw [unsatisfiable, hb], ?_⟩
  rw [Bool.not_eq_true', ← Bool.not_eq_true, hiff]
  push Not
  simp only [List.mem_singleton, exists_eq_left, Formula.holds_negate f hf,
    ne_eq, Bool.not_eq_true', Bool.not_eq_false]

/-- **Formulas are valid exactly when each negation is refuted.** -/
theorem valid_iff_forall_unsatisfiable {c : Bool} (h : Fits given fs)
    (hfs : ∀ f ∈ fs, f.ReservedFree) (hc : valid fs given = .ok c) :
    (∀ f ∈ fs, ∃ b, unsatisfiable [f.negate] given = .ok b) ∧
      (c = true ↔ ∀ f ∈ fs, unsatisfiable [f.negate] given = .ok true) := by
  have hcheck : ∀ f ∈ fs, ∃ b, unsatisfiable [f.negate] given = .ok b ∧
      (b = true ↔ ∀ value ∈ scope given, f.holds value = true) := by
    intro f hf
    exact exists_unsatisfiable_negate_eq_ok (h.negate hf) (hfs f hf)
  have hrefuted : ∀ f ∈ fs, unsatisfiable [f.negate] given = .ok true ↔
      ∀ value ∈ scope given, f.holds value = true := by
    intro f hf
    obtain ⟨b, hb, hiff⟩ := hcheck f hf
    rw [hb, Except.ok.injEq, hiff]
  obtain ⟨d, hd, hiff⟩ := exists_valid_eq_ok_scope h
  rw [hc, Except.ok.injEq] at hd
  refine ⟨?_, ?_⟩
  · intro f hf
    obtain ⟨b, hb, _⟩ := hcheck f hf
    exact ⟨b, hb⟩
  · rw [hd, hiff]
    constructor
    · intro hall f hf
      exact (hrefuted f hf).mpr fun value hvalue => hall value hvalue f hf
    · intro hall value hvalue f hf
      exact (hrefuted f hf).mp (hall f hf) value hvalue

end Questions

/-! ## §3. One enumeration. -/

/-- **Models, satisfiability and validity agree on one enumeration.**  For any
formulas and any alphabet, given or inferred from at most 63 atoms, the models
are listed in strictly increasing order, and they are exactly the valuations
of the alphabet at which every formula is true; however many are asked for,
the first of the list come.  The formulas are satisfiable exactly when a model
is listed, and valid exactly when all `2 ^ n` valuations are.  If they are
reserved-free, they are valid exactly when the negation of each is refuted
over the same argument; with an inferred alphabet, exactly when each is
entailed by nothing. -/
theorem questions_agree_on_models {fs : List Formula}
    {given : Option Alphabet}
    (h : given = none → (occurringAtoms fs).size ≤ maxAlphabetSize) :
    ∃ α m b c,
      (given = some α ∨ given = none ∧ α.atoms = occurringAtoms fs) ∧
      models fs given = .ok m ∧ (∀ k, m.take k = m.toList.take k) ∧
      m.toList.Pairwise (fun v w => compare v w = .lt) ∧
      (∀ v : Valuation, m.Yields v ↔
        v.alphabet = α ∧ ∀ f ∈ fs, v.satisfies f = true) ∧
      satisfiable fs given = .ok b ∧ unsatisfiable fs given = .ok (!b) ∧
      (b = true ↔ m.toList ≠ []) ∧
      valid fs given = .ok c ∧ (c = true ↔ m.toList.length = 2 ^ α.size) ∧
      ((∀ f ∈ fs, f.ReservedFree) →
        ((∀ f ∈ fs, ∃ d, unsatisfiable [f.negate] given = .ok d) ∧
          (c = true ↔
            ∀ f ∈ fs, unsatisfiable [f.negate] given = .ok true)) ∧
        (given = none →
          (∀ f ∈ fs, ∃ d, entails [] f = .ok d) ∧
          (c = true ↔ ∀ f ∈ fs, entails [] f = .ok true))) := by
  have hfits : Fits given fs := h
  obtain ⟨α, hα, horigin⟩ := hfits.exists_orOfFormulas_eq_ok
  have hmodels : models fs given = .ok ⟨fs, α.valuations false⟩ := by
    rw [models, hα]
  have hsat : satisfiable fs given =
      .ok (Models.next? ⟨fs, α.valuations false⟩).isSome := by
    rw [satisfiable, hmodels]
  have hvalid : valid fs given =
      .ok ((α.valuations false).all fun v => v.satisfiesAll fs) := by
    rw [valid, hα]
  refine ⟨α, _, _, _, horigin, hmodels, Models.take_eq _,
    Models.pairwise_toList _, fun v => Models.yields_iff_satisfies, hsat, ?_,
    Models.isSome_next?_iff_toList_ne_nil _, hvalid,
    Valuations.all_satisfiesAll_iff, ?_⟩
  · rw [unsatisfiable, hsat]
  · intro hfs
    have heach := valid_iff_forall_unsatisfiable hfits hfs hvalid
    refine ⟨heach, ?_⟩
    intro hnone
    -- Entailment by nothing is refutation of the negation.
    rw [hnone] at heach
    exact heach

/-- A penguin is a penguin, and it is a bird or it is not. -/
def truisms : List Formula :=
  [.imp (.literal (.positive ⟨"p"⟩)) (.literal (.positive ⟨"p"⟩)),
    .imp (.literal (.positive ⟨"p"⟩))
      (.formula (.disj (.literal (.positive ⟨"b"⟩))
        (.literal (.negative ⟨"b"⟩))))]

theorem questions_agree_on_truisms :
    (occurringAtoms truisms).size ≤ maxAlphabetSize ∧
      (∀ f ∈ truisms, f.ReservedFree) ∧
      ∃ (α : Alphabet) (m : Models), models truisms none = .ok m ∧
        α.atoms = occurringAtoms truisms ∧
        m.toList.length = 2 ^ α.size ∧
        (∀ f ∈ truisms, unsatisfiable [f.negate] none = .ok true) ∧
        ∀ f ∈ truisms, entails [] f = .ok true := by
  have hsize : (occurringAtoms truisms).size ≤ maxAlphabetSize := by decide
  have hfs : ∀ f ∈ truisms, f.ReservedFree := by decide
  have hvalid : valid truisms none = .ok true := by decide +kernel
  obtain ⟨α, m, b, c, horigin, hm, _, _, _, _, _, _, hc, hall, hchecks⟩ :=
    @questions_agree_on_models truisms none fun _ => hsize
  obtain ⟨⟨_, hrefuted⟩, hentailed⟩ := hchecks hfs
  rw [hvalid, Except.ok.injEq] at hc
  rcases horigin with hgiven | ⟨_, hα⟩
  · cases hgiven
  · exact ⟨hsize, hfs, α, m, hm, hα, hall.mp hc.symm, hrefuted.mp hc.symm,
      (hentailed rfl).2.mp hc.symm⟩

end SystemZ
