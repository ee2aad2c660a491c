/-
  SystemZ.Proofs.ExtraAtoms
  ─────────────────────────
  **ATOMS THAT NO FORMULA MENTIONS CHANGE NO ANSWER, AND MULTIPLY THE MODELS.**

  Over any alphabet that covers some formulas, satisfiability and validity are
  questions about all assignments, so two such alphabets give one answer.

  To count models, a valuation is read as the set of its true atoms.  An
  enumeration lists every subset of the alphabet once.  A subset of the larger
  alphabet is a subset of the smaller one together with any choice of extra
  atoms, and the formulas do not see the choice: so each extra atom doubles
  the number of models, wherever it sorts among the others.

  Main results:
    `satisfiable_congr_alphabet`, `valid_congr_alphabet`   one answer
    `map_trueSet_rest_perm`         every subset is listed once
    `length_toList_eq_card`         models are counted as subsets
    `card_filter_powerset_eq`       a choice that does not matter multiplies
    `yields_iff_of_isProjection`    models of the larger alphabet, by restriction
    `answers_ignore_extra_atoms`
-/
import Mathlib.Data.Finset.Powerset
import Mathlib.Data.Finset.Prod
import Mathlib.Data.List.Perm.Subperm
import SystemZ.Proofs.Projection

namespace SystemZ

/-! ## §1. Answers over a covering alphabet. -/

/-- The alphabet has all atoms that occur in some formulas. -/
def Alphabet.Covers (α : Alphabet) (fs : List Formula) : Prop :=
  ∀ f ∈ fs, ∀ a ∈ f.atoms, a ∈ α.atoms

section Answers

variable {fs : List Formula} {α β : Alphabet}

/-- The inferred alphabet exists where some alphabet covers the formulas, and
it covers them too. -/
theorem exists_orOfFormulas_none_eq_ok (hα : α.Covers fs) :
    ∃ δ : Alphabet, δ.Covers fs ∧ Alphabet.orOfFormulas none fs = .ok δ := by
  have hfit : (occurringAtoms fs).size ≤ maxAlphabetSize :=
    Alphabet.size_le_of_subset fun a ha => by
      obtain ⟨f, hf, haf⟩ := mem_occurringAtoms.mp ha
      exact hα f hf a haf
  refine ⟨⟨occurringAtoms fs, hfit⟩, ?_, ?_⟩
  · intro f hf a ha
    exact mem_occurringAtoms.mpr ⟨f, hf, ha⟩
  · rw [Alphabet.orOfFormulas, Alphabet.ofFormulas_eq, Alphabet.ofSet,
      dif_pos hfit]

/-- Over a covering alphabet satisfiability is decided for all assignments. -/
theorem exists_satisfiable_some_eq_ok (hα : α.Covers fs) :
    ∃ b, satisfiable fs (some α) = .ok b ∧
      (b = true ↔ ∃ value : Atom → Bool, ∀ f ∈ fs, f.holds value = true) := by
  refine ⟨_, rfl, ?_⟩
  rw [Models.isSome_next?_iff]
  exact exists_satisfiesAll_iff hα

/-- So is validity. -/
theorem exists_valid_some_eq_ok (hα : α.Covers fs) :
    ∃ b, valid fs (some α) = .ok b ∧
      (b = true ↔ ∀ value : Atom → Bool, ∀ f ∈ fs, f.holds value = true) := by
  refine ⟨_, rfl, ?_⟩
  rw [Valuations.all_iff]
  constructor
  · intro hall value f hf
    obtain ⟨v, hv, hagree⟩ :=
      Valuations.exists_mem_rest_of_assignment α false value
    rw [← Formula.holds_congr fun a ha => hagree a (hα f hf a ha)]
    exact Valuation.satisfiesAll_iff.mp (hall v hv) f hf
  · intro hall v _
    exact Valuation.satisfiesAll_iff.mpr (hall v.value)

theorem satisfiable_congr_alphabet (hα : α.Covers fs) (hβ : β.Covers fs) :
    satisfiable fs (some α) = satisfiable fs (some β) := by
  obtain ⟨b, hb, hiff⟩ := exists_satisfiable_some_eq_ok hα
  obtain ⟨c, hc, hiff'⟩ := exists_satisfiable_some_eq_ok hβ
  rw [hb, hc, Bool.eq_iff_iff.mpr (hiff.trans hiff'.symm)]

theorem valid_congr_alphabet (hα : α.Covers fs) (hβ : β.Covers fs) :
    valid fs (some α) = valid fs (some β) := by
  obtain ⟨b, hb, hiff⟩ := exists_valid_some_eq_ok hα
  obtain ⟨c, hc, hiff'⟩ := exists_valid_some_eq_ok hβ
  rw [hb, hc, Bool.eq_iff_iff.mpr (hiff.trans hiff'.symm)]

/-- **An inferred alphabet gives the answers of a covering one.** -/
theorem answers_none_eq (hα : α.Covers fs) :
    satisfiable fs none = satisfiable fs (some α) ∧
      valid fs none = valid fs (some α) := by
  obtain ⟨δ, hδ, hinferred⟩ := exists_orOfFormulas_none_eq_ok hα
  constructor
  · rw [satisfiable_congr_alphabet hα hδ, satisfiable, models, hinferred]
    rfl
  · rw [valid_congr_alphabet hα hδ, valid, hinferred]
    rfl

end Answers

/-! ## §2. Valuations as sets of true atoms. -/

/-- The atoms of an alphabet, as a finite set. -/
def Alphabet.atomSet (α : Alphabet) : Finset Atom := α.atoms.toList.toFinset

theorem Alphabet.mem_atomSet {α : Alphabet} {a : Atom} :
    a ∈ α.atomSet ↔ a ∈ α.atoms := List.mem_toFinset

theorem Alphabet.card_atomSet (α : Alphabet) : α.atomSet.card = α.size :=
  List.toFinset_card_of_nodup α.atoms.nodup

/-- The true atoms of a valuation, as a finite set. -/
def Valuation.trueSet (v : Valuation) : Finset Atom := v.trueAtoms.toFinset

theorem Valuation.mem_trueSet {v : Valuation} {a : Atom} :
    a ∈ v.trueSet ↔ v.value a = true := by
  rw [trueSet, List.mem_toFinset, mem_trueAtoms]

theorem Valuation.value_eq_trueSet (v : Valuation) :
    v.value = fun a => decide (a ∈ v.trueSet) := by
  funext a
  rw [Bool.eq_iff_iff, decide_eq_true_iff, mem_trueSet]

/-- Every subset of the alphabet is the set of true atoms of a listed
valuation. -/
theorem Valuations.exists_mem_rest_of_subset {α : Alphabet} (complete : Bool)
    {S : Finset Atom} (hS : S ⊆ α.atomSet) :
    ∃ v ∈ (α.valuations complete).rest, v.trueSet = S := by
  obtain ⟨v, hv, hagree⟩ :=
    exists_mem_rest_of_assignment α complete fun a => decide (a ∈ S)
  refine ⟨v, hv, ?_⟩
  ext a
  rw [Valuation.mem_trueSet]
  by_cases ha : a ∈ α.atoms
  · rw [hagree a ha, decide_eq_true_iff]
  · -- Outside the alphabet atoms are false, and `S` has none of them.
    have hout : a ∉ v.alphabet.atoms := by
      rw [alphabet_of_mem_rest hv]
      exact ha
    have hnot : a ∉ S := fun h => ha (Alphabet.mem_atomSet.mp (hS h))
    rw [Valuation.value_of_not_mem hout]
    simp [hnot]

/-- **An enumeration lists every subset of its alphabet once.** -/
theorem Valuations.map_trueSet_rest_perm (α : Alphabet) (complete : Bool) :
    ((α.valuations complete).rest.map Valuation.trueSet).Perm
      α.atomSet.powerset.toList := by
  -- All subsets are listed, and there are not more valuations than subsets.
  have hsub : α.atomSet.powerset.toList.Subperm
      ((α.valuations complete).rest.map Valuation.trueSet) := by
    apply (Finset.nodup_toList _).subperm
    intro S hS
    rw [Finset.mem_toList, Finset.mem_powerset] at hS
    exact List.mem_map.mpr (exists_mem_rest_of_subset complete hS)
  refine (hsub.perm_of_length_le ?_).symm
  rw [List.length_map, length_rest_valuations, Finset.length_toList,
    Finset.card_powerset, Alphabet.card_atomSet, Nat.one_shiftLeft]

/-! ## §3. Counting models. -/

/-- A set of atoms makes all formulas of a list true. -/
def Satisfies (S : Finset Atom) (fs : List Formula) : Prop :=
  ∀ f ∈ fs, f.holds (fun a => decide (a ∈ S)) = true

instance (fs : List Formula) : DecidablePred (Satisfies · fs) :=
  fun _ => inferInstanceAs (Decidable (∀ f ∈ fs, _))

theorem Valuation.satisfiesAll_iff_trueSet {v : Valuation}
    {fs : List Formula} :
    v.satisfiesAll fs = true ↔ Satisfies v.trueSet fs := by
  rw [satisfiesAll_iff, Satisfies, value_eq_trueSet]

/-- Sets that agree on the atoms of the formulas satisfy them alike. -/
theorem satisfies_inter_iff {fs : List Formula} {α : Alphabet}
    (hα : α.Covers fs) (S : Finset Atom) :
    Satisfies S fs ↔ Satisfies (S ∩ α.atomSet) fs := by
  have hread : ∀ f ∈ fs, f.holds (fun a => decide (a ∈ S)) =
      f.holds (fun a => decide (a ∈ S ∩ α.atomSet)) := by
    intro f hf
    apply Formula.holds_congr
    intro a ha
    simp [Alphabet.mem_atomSet, hα f hf a ha]
  constructor
  · intro h f hf
    rw [← hread f hf]
    exact h f hf
  · intro h f hf
    rw [hread f hf]
    exact h f hf

/-- **Models are counted as the subsets that satisfy the formulas.** -/
theorem Models.length_toList_eq_card (fs : List Formula) (α : Alphabet)
    (complete : Bool) :
    (Models.toList ⟨fs, α.valuations complete⟩).length =
      (α.atomSet.powerset.filter (Satisfies · fs)).card := by
  have htest : (fun v : Valuation => v.satisfiesAll fs) =
      (fun S => decide (Satisfies S fs)) ∘ Valuation.trueSet := by
    funext v
    rw [Bool.eq_iff_iff, Valuation.satisfiesAll_iff_trueSet]
    exact decide_eq_true_iff.symm
  have hperm := Valuations.map_trueSet_rest_perm α complete
  rw [toList, ← List.countP_eq_length_filter, htest, ← List.countP_map,
    hperm.countP_eq, List.countP_eq_length_filter, Finset.card_def,
    Finset.filter_val, ← Multiset.coe_card, ← Multiset.filter_coe]
  exact congrArg (fun s => (Multiset.filter (Satisfies · fs) s).card)
    (Multiset.coe_toList _)

/-- Subsets of a larger set that are tested on a smaller one alone: each that
passes there comes with every choice of the rest. -/
theorem card_filter_powerset_eq {ι : Type*} [DecidableEq ι] {A B : Finset ι}
    (hAB : A ⊆ B) {p : Finset ι → Prop} [DecidablePred p]
    (hp : ∀ S, p S ↔ p (S ∩ A)) :
    (B.powerset.filter p).card =
      2 ^ (B.card - A.card) * (A.powerset.filter p).card := by
  rw [← Finset.card_sdiff_of_subset hAB, ← Finset.card_powerset,
    ← Finset.card_product]
  -- A set is cut at `A` and put together again.
  have hjoin : ∀ X Y : Finset ι, X ⊆ B \ A → Y ⊆ A →
      (X ∪ Y) \ A = X ∧ (X ∪ Y) ∩ A = Y := by
    intro X Y hX hY
    have hdisj : Disjoint X A := Finset.disjoint_of_subset_left hX
      Finset.sdiff_disjoint
    rw [Finset.union_sdiff_distrib, Finset.union_inter_distrib_right,
      Finset.sdiff_eq_self_of_disjoint hdisj,
      Finset.sdiff_eq_empty_iff_subset.mpr hY, Finset.union_empty,
      Finset.disjoint_iff_inter_eq_empty.mp hdisj, Finset.empty_union,
      Finset.inter_eq_left.mpr hY]
    exact ⟨rfl, rfl⟩
  refine Finset.card_nbij' (fun S => (S \ A, S ∩ A)) (fun x => x.1 ∪ x.2)
    ?_ ?_ ?_ ?_
  · intro S hS
    rw [Finset.mem_coe, Finset.mem_filter, Finset.mem_powerset] at hS
    rw [Finset.mem_coe, Finset.mem_product, Finset.mem_powerset,
      Finset.mem_filter, Finset.mem_powerset]
    exact ⟨Finset.sdiff_subset_sdiff hS.1 (Finset.Subset.refl A),
      Finset.inter_subset_right, (hp S).mp hS.2⟩
  · rintro ⟨X, Y⟩ hx
    rw [Finset.mem_coe, Finset.mem_product, Finset.mem_powerset,
      Finset.mem_filter, Finset.mem_powerset] at hx
    obtain ⟨hX, hY, hpass⟩ := hx
    rw [Finset.mem_coe, Finset.mem_filter, Finset.mem_powerset, hp,
      (hjoin X Y hX hY).2]
    exact ⟨Finset.union_subset (hX.trans Finset.sdiff_subset)
      (hY.trans hAB), hpass⟩
  · intro S _
    exact Finset.sdiff_union_inter S A
  · rintro ⟨X, Y⟩ hx
    rw [Finset.mem_coe, Finset.mem_product, Finset.mem_powerset,
      Finset.mem_filter, Finset.mem_powerset] at hx
    obtain ⟨hX, hY, _⟩ := hx
    obtain ⟨hout, hin⟩ := hjoin X Y hX hY
    exact Prod.ext hout hin

/-! ## §4. Models of the larger alphabet. -/

/-- Some model to come is the given valuation, whatever it leaves
unassigned. -/
def Models.Yields (m : Models) (v : Valuation) : Prop :=
  ∃ u ∈ m.toList, (u == v) = true

theorem Models.yields_iff {fs : List Formula} {α : Alphabet} {complete : Bool}
    {v : Valuation} (hv : v.alphabet = α) :
    Models.Yields ⟨fs, α.valuations complete⟩ v ↔
      v.satisfiesAll fs = true := by
  have hread : ∀ u : Valuation, (u == v) = true →
      u.satisfiesAll fs = v.satisfiesAll fs := by
    intro u hu
    rw [Bool.eq_iff_iff, Valuation.satisfiesAll_iff,
      Valuation.satisfiesAll_iff, Valuation.value_eq_of_beq hu]
  constructor
  · rintro ⟨u, hu, hbeq⟩
    rw [← hread u hbeq]
    exact (List.mem_filter.mp hu).2
  · intro hsat
    obtain ⟨u, hu, hbeq⟩ := Valuations.exists_getElem?_rest_beq complete hv
    refine ⟨u, List.mem_filter.mpr ⟨List.mem_of_getElem? hu, ?_⟩, hbeq⟩
    rw [hread u hbeq, hsat]

/-- **A valuation of the larger alphabet is a model exactly if its projection
is.** -/
theorem Models.yields_iff_of_isProjection {fs : List Formula} {α β : Alphabet}
    (hα : α.Covers fs) {v w : Valuation} (hv : v.alphabet = α)
    (hw : w.alphabet = β) (hproj : v.IsProjection w) :
    Models.Yields ⟨fs, β.valuations false⟩ w ↔
      Models.Yields ⟨fs, α.valuations false⟩ v := by
  rw [yields_iff hw, yields_iff hv, Valuation.satisfiesAll_iff,
    Valuation.satisfiesAll_iff]
  have hread : ∀ f ∈ fs, f.holds w.value = f.holds v.value := by
    intro f hf
    have hagree : Valuation.AgreeOn f.atoms v w :=
      hproj.agreeOn fun a ha => hv ▸ hα f hf a ha
    exact (Formula.holds_congr hagree).symm
  constructor
  · intro h f hf
    rw [← hread f hf, h f hf]
  · intro h f hf
    rw [hread f hf, h f hf]

/-! ## §5. Two alphabets. -/

/-- **Extra atoms change no answer, and double the models.**  Let an alphabet
cover some formulas, and another have all its atoms.  Over both, and without
an alphabet, the formulas are satisfiable alike, unsatisfiable alike and valid
alike.  The larger alphabet has `2 ^ k` times as many models for `k` more
atoms, and its models are the valuations whose projection to the smaller one
is a model. -/
theorem answers_ignore_extra_atoms {fs : List Formula} {α β : Alphabet}
    (hα : ∀ f ∈ fs, ∀ a ∈ f.atoms, a ∈ α.atoms)
    (hαβ : ∀ a ∈ α.atoms, a ∈ β.atoms) :
    (∃ b c, ∀ given ∈ [none, some α, some β],
      satisfiable fs given = .ok b ∧ unsatisfiable fs given = .ok (!b) ∧
        valid fs given = .ok c) ∧
    ∃ m n, models fs (some α) = .ok m ∧ models fs (some β) = .ok n ∧
      n.toList.length = 2 ^ (β.size - α.size) * m.toList.length ∧
      ∀ w : Valuation, w.alphabet = β →
        (∃ v : Valuation, v.alphabet = α ∧ v.IsProjection w) ∧
        ∀ v : Valuation, v.alphabet = α → v.IsProjection w →
          (n.Yields w ↔ m.Yields v) := by
  have hβ : β.Covers fs := fun f hf a ha => hαβ a (hα f hf a ha)
  refine ⟨?_, ⟨fs, α.valuations false⟩, ⟨fs, β.valuations false⟩, rfl, rfl,
    ?_, ?_⟩
  · obtain ⟨b, hb, _⟩ := exists_satisfiable_some_eq_ok hα
    obtain ⟨c, hc, _⟩ := exists_valid_some_eq_ok hα
    obtain ⟨hsat, hvalid⟩ := answers_none_eq hα
    refine ⟨b, c, ?_⟩
    have hgiven : ∀ given ∈ [none, some α, some β],
        satisfiable fs given = .ok b ∧ valid fs given = .ok c := by
      simp only [List.mem_cons, List.not_mem_nil, or_false]
      rintro given (rfl | rfl | rfl)
      · exact ⟨hsat.trans hb, hvalid.trans hc⟩
      · exact ⟨hb, hc⟩
      · exact ⟨(satisfiable_congr_alphabet hβ hα).trans hb,
          (valid_congr_alphabet hβ hα).trans hc⟩
    intro given hmem
    obtain ⟨hsat, hvalid⟩ := hgiven given hmem
    exact ⟨hsat, by rw [unsatisfiable, hsat], hvalid⟩
  · have hsub : α.atomSet ⊆ β.atomSet := fun a ha =>
      Alphabet.mem_atomSet.mpr (hαβ a (Alphabet.mem_atomSet.mp ha))
    rw [Models.length_toList_eq_card, Models.length_toList_eq_card,
      card_filter_powerset_eq hsub (satisfies_inter_iff hα),
      Alphabet.card_atomSet, Alphabet.card_atomSet]
  · intro w hw
    refine ⟨w.exists_isProjection α, ?_⟩
    intro v hv hproj
    exact Models.yields_iff_of_isProjection hα hv hw hproj

/-- Two atoms more, one before all birds and one after them: four times as many
models. -/
theorem answers_ignore_zoo_atoms :
    (∀ f ∈ penguins.materialized.toList, ∀ a ∈ f.atoms,
        a ∈ birdAlphabet.atoms) ∧
      (∀ a ∈ birdAlphabet.atoms, a ∈ zooAlphabet.atoms) ∧
      ∃ m n, models penguins.materialized.toList (some birdAlphabet) = .ok m ∧
        models penguins.materialized.toList (some zooAlphabet) = .ok n ∧
        n.toList.length = 4 * m.toList.length ∧
        satisfiable penguins.materialized.toList none =
          satisfiable penguins.materialized.toList (some zooAlphabet) := by
  have hα : ∀ f ∈ penguins.materialized.toList, ∀ a ∈ f.atoms,
      a ∈ birdAlphabet.atoms := by
    intro f hf a ha
    obtain ⟨s, hs, rfl⟩ := KnowledgeBase.mem_materialized.mp hf
    have hmem : a ∈ penguins.atoms := KnowledgeBase.mem_atoms_of_mem hs
      (Conditional.mem_atoms_of_materialize ha)
    exact SortedSet.subset_iff.mp (by decide) a hmem
  have hαβ : ∀ a ∈ birdAlphabet.atoms, a ∈ zooAlphabet.atoms :=
    SortedSet.subset_iff.mp (by decide)
  obtain ⟨⟨b, c, hanswers⟩, m, n, hm, hn, hcount, _⟩ :=
    answers_ignore_extra_atoms hα hαβ
  have hnone := (hanswers none (by simp)).1
  have hzoo := (hanswers (some zooAlphabet) (by simp)).1
  exact ⟨hα, hαβ, m, n, hm, hn, hcount, hnone.trans hzoo.symm⟩

end SystemZ
