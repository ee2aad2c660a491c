/-
  SystemZ.Proofs.Entailment
  ─────────────────────────
  **ENTAILMENT DECIDES CLASSICAL CONSEQUENCE.**

  A target is a consequence of some formulas when every assignment that makes
  the formulas true makes it true.  Entailment looks for a counterexample
  instead: a valuation, over the atoms of the formulas and of the negated
  target, that makes all of these true.  The negation brings in no atom, so
  that alphabet fits when the atoms of formulas and target do, and the
  valuations of an alphabet that covers some formulas stand for all
  assignments.  The target must be reserved-free for its negation to be the
  Boolean one; of the formulas nothing is asked.

  Main results:
    `entails_congr`          the list of formulas is read as a set
    `exists_entails_eq_ok`   the answer is that of consequence
    `entails_decides_consequence`
-/
import SystemZ.Proofs.Assignments
import SystemZ.Proofs.Negation

namespace SystemZ

/-! ## §1. Lists of formulas, read as sets. -/

section Congr

variable {fs gs : List Formula}

theorem Valuation.satisfiesAll_congr (h : ∀ f, f ∈ gs ↔ f ∈ fs)
    (v : Valuation) : v.satisfiesAll gs = v.satisfiesAll fs := by
  rw [Bool.eq_iff_iff, satisfiesAll_iff, satisfiesAll_iff]
  simp only [h]

theorem occurringAtoms_congr (h : ∀ f, f ∈ gs ↔ f ∈ fs) :
    occurringAtoms gs = occurringAtoms fs := by
  apply SortedSet.ext
  intro a
  rw [mem_occurringAtoms, mem_occurringAtoms]
  simp only [h]

/-- Formulas with the same members are satisfiable together, or are too many
for an alphabet together. -/
theorem satisfiable_congr (h : ∀ f, f ∈ gs ↔ f ∈ fs) :
    satisfiable gs none = satisfiable fs none := by
  rw [satisfiable, satisfiable, models, models, Alphabet.orOfFormulas,
    Alphabet.orOfFormulas, Alphabet.ofFormulas_eq, Alphabet.ofFormulas_eq,
    occurringAtoms_congr h]
  cases Alphabet.ofSet (occurringAtoms fs) with
  | error e => rfl
  | ok α =>
      have hall : (fun v : Valuation => v.satisfiesAll gs) =
          fun v => v.satisfiesAll fs :=
        funext (Valuation.satisfiesAll_congr h)
      simp only [Models.next?, hall]
      cases (α.valuations false).find? fun v => v.satisfiesAll fs <;> rfl

/-- **Order and repetition of the formulas do not matter**, neither for the
answer nor for the error. -/
theorem entails_congr (h : ∀ f, f ∈ gs ↔ f ∈ fs) (t : Formula) :
    entails gs t = entails fs t := by
  have hneg : ∀ f, f ∈ gs ++ [t.negate] ↔ f ∈ fs ++ [t.negate] := by
    intro f
    rw [List.mem_append, List.mem_append, h f]
  rw [entails, entails, unsatisfiable, unsatisfiable, satisfiable_congr hneg]

end Congr

/-! ## §2. Consequence. -/

/-- Every assignment that makes all formulas of a list true makes the target
true. -/
def Consequence (fs : List Formula) (t : Formula) : Prop :=
  ∀ value : Atom → Bool, (∀ f ∈ fs, f.holds value = true) →
    t.holds value = true

variable {fs : List Formula} {t : Formula}

/-- A target fails to follow when it can be false with all formulas true. -/
theorem not_consequence_iff (ht : t.ReservedFree) :
    ¬ Consequence fs t ↔
      ∃ value : Atom → Bool, ∀ f ∈ fs ++ [t.negate], f.holds value = true := by
  have hnegate : ∀ value : Atom → Bool,
      t.negate.holds value = true ↔ ¬ t.holds value = true := by
    intro value
    rw [Formula.holds_negate t ht, Bool.not_eq_true', Bool.not_eq_true]
  unfold Consequence
  push Not
  simp only [List.forall_mem_append, List.forall_mem_singleton, hnegate, ne_eq]

/-- **Entailment is consequence**, and it is decided whenever the atoms of
formulas and target fit an alphabet. -/
theorem exists_entails_eq_ok (ht : t.ReservedFree)
    (hsize : (occurringAtoms (fs ++ [t])).size ≤ maxAlphabetSize) :
    ∃ b, entails fs t = .ok b ∧ (b = true ↔ Consequence fs t) := by
  -- The search sees no atom beyond those of the formulas and the target.
  have hatoms : ∀ f ∈ fs ++ [t.negate], ∀ a ∈ f.atoms,
      a ∈ occurringAtoms (fs ++ [t]) := by
    intro f hf a ha
    rw [mem_occurringAtoms]
    rcases List.mem_append.mp hf with hf | hf
    · exact ⟨f, List.mem_append_left _ hf, ha⟩
    · rw [List.mem_singleton.mp hf] at ha
      exact ⟨t, List.mem_append_right _ List.mem_cons_self,
        Formula.mem_atoms_of_negate ha⟩
  obtain ⟨b, hb, hiff⟩ := exists_satisfiable_eq_ok
    (Nat.le_trans (size_occurringAtoms_le hatoms) hsize)
  refine ⟨!b, by rw [entails, unsatisfiable, hb], ?_⟩
  rw [Bool.not_eq_true', ← Bool.not_eq_true, hiff, ← not_consequence_iff ht,
    not_not]

/-- **Entailment decides classical consequence.**  For a reserved-free target,
if it and the formulas have at most 63 different atoms together, entailment
answers, its answer is yes exactly if the target is a consequence of the
formulas, and any list with the same members gives the same answer. -/
theorem entails_decides_consequence (ht : t.ReservedFree)
    (hsize : (occurringAtoms (fs ++ [t])).size ≤ maxAlphabetSize) :
    ∃ b, entails fs t = .ok b ∧ (b = true ↔ Consequence fs t) ∧
      ∀ gs : List Formula, (∀ f, f ∈ gs ↔ f ∈ fs) → entails gs t = .ok b := by
  obtain ⟨b, hb, hiff⟩ := exists_entails_eq_ok ht hsize
  refine ⟨b, hb, hiff, ?_⟩
  intro gs hgs
  rw [entails_congr hgs, hb]

/-- Penguins are birds, and this one is a penguin. -/
def penguinPremises : List Formula :=
  [.imp (.literal (.positive ⟨"p"⟩)) (.literal (.positive ⟨"b"⟩)),
    .leaf (.positive ⟨"p"⟩)]

theorem entails_bird_of_penguinPremises :
    (Formula.leaf (.positive ⟨"b"⟩)).ReservedFree ∧
      (occurringAtoms (penguinPremises ++ [.leaf (.positive ⟨"b"⟩)])).size ≤
        maxAlphabetSize ∧
      entails penguinPremises (.leaf (.positive ⟨"b"⟩)) = .ok true ∧
      entails (penguinPremises.reverse ++ penguinPremises)
        (.leaf (.positive ⟨"b"⟩)) = .ok true := by
  have ht : (Formula.leaf (.positive ⟨"b"⟩)).ReservedFree := by decide
  have hsize : (occurringAtoms
      (penguinPremises ++ [.leaf (.positive ⟨"b"⟩)])).size ≤
        maxAlphabetSize := by decide
  obtain ⟨b, hb, hiff, hsame⟩ := entails_decides_consequence ht hsize
  have hfollows : Consequence penguinPremises (.leaf (.positive ⟨"b"⟩)) := by
    intro value hpremises
    have hrule := hpremises _ List.mem_cons_self
    have hpenguin : (Formula.leaf (.positive ⟨"p"⟩)).holds value = true :=
      hpremises _ (List.mem_cons_of_mem _ List.mem_cons_self)
    rw [Formula.holds_imp] at hrule
    have hholds : ∀ l : Literal,
        (Operand.literal l).holds value = (Formula.leaf l).holds value :=
      fun _ => rfl
    simpa [hholds, hpenguin] using hrule
  rw [hiff.mpr hfollows] at hb hsame
  exact ⟨ht, hsize, hb, hsame _ (by simp)⟩

end SystemZ
