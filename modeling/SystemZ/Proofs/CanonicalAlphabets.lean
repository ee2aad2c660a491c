/-
  SystemZ.Proofs.CanonicalAlphabets
  ─────────────────────────────────
  **ALPHABETS ARE CANONICAL, AND POSITIONS INVERT LISTING.**

  Every mask speaks of atoms by their positions, so an alphabet must give each
  of its atoms one position, and the same one however it was made.  Both come
  from the increasing list: as it is strictly increasing, a list of atoms, in
  any order and with repetitions, leaves nothing of itself behind but which
  atoms it lists, and how many different ones; and no atom stands in two
  places, so any way to search the list that is right finds the same place.

  The atoms that are inferred from formulas are those that stand in a literal,
  however deep, the two constants aside.

  Main results:
    `Alphabet.ofAtoms_eq_error_iff`   the limit counts different atoms
    `Alphabet.ofAtoms_eq_ok_iff`   an alphabet by the atoms that were listed
    `FindsPlaces.eq_index?`   every right search gives the positions
    `mem_occurringAtoms_iff_occursIn`   inferred atoms, at any depth
    `alphabets_are_canonical`
-/
import SystemZ.Proofs.AlphabetLimit
import SystemZ.Proofs.Parts
import SystemZ.Proofs.SetAlgebra

namespace SystemZ

/-! ## §1. Listed atoms. -/

/-- Atoms are ordered as their symbols are. -/
theorem Atom.compare_eq_lt_iff {a b : Atom} :
    compare a b = .lt ↔ a.symbol < b.symbol := by
  rw [compare_def]
  exact compareOfLessAndEq_eq_lt

namespace Alphabet

variable {l m : List Atom} {α : Alphabet}

/-- **The limit counts different atoms**, and the error reports their number. -/
theorem ofAtoms_eq_error_iff {e : AlphabetError} :
    ofAtoms l = .error e ↔
      maxAlphabetSize < l.dedup.length ∧
        e = .tooManyAtoms l.dedup.length := by
  rw [← SortedSet.size_ofList l]
  exact ofSet_failsBeyondLimit (.ofList l) e

/-- What comes out holds the listed atoms. -/
theorem atoms_of_ofAtoms (h : ofAtoms l = .ok α) : α.atoms = .ofList l := by
  unfold ofAtoms ofSet at h
  split at h
  · cases h
    rfl
  · cases h

/-- **A list makes an alphabet exactly if it lists its atoms**, in any order
and with repetitions. -/
theorem ofAtoms_eq_ok_iff : ofAtoms l = .ok α ↔ ∀ a, a ∈ l ↔ a ∈ α.atoms := by
  constructor
  · intro h a
    rw [atoms_of_ofAtoms h, SortedSet.mem_ofList]
  · intro h
    have hatoms : SortedSet.ofList l = α.atoms := by
      apply SortedSet.ext
      intro a
      rw [SortedSet.mem_ofList, h a]
    have hfit : (SortedSet.ofList l).size ≤ maxAlphabetSize := by
      rw [hatoms]
      exact α.size_le
    show ofSet (SortedSet.ofList l) = .ok α
    rw [ofSet, dif_pos hfit]
    cases α
    cases hatoms
    rfl

theorem exists_ofAtoms_eq_ok (h : l.dedup.length ≤ maxAlphabetSize) :
    ∃ α, ofAtoms l = .ok α := by
  cases hl : ofAtoms l with
  | ok α => exact ⟨α, rfl⟩
  | error e =>
      have hlarge := (ofAtoms_eq_error_iff.mp hl).1
      omega

end Alphabet

/-! ## §2. Searching for a position. -/

/-- A search that is right on strictly increasing lists: what it answers is a
place where the atom stands, and it gives up only on atoms that do not. -/
def FindsPlaces (search : List Atom → Atom → Option Nat) : Prop :=
  ∀ (l : List Atom) (a : Atom),
    l.Pairwise (fun b c => b.symbol < c.symbol) →
      (∀ i, search l a = some i → l[i]? = some a) ∧
        (search l a = none → a ∉ l)

theorem Alphabet.pairwise_symbols (α : Alphabet) :
    α.atoms.toList.Pairwise (fun a b => a.symbol < b.symbol) :=
  α.atoms.sorted.imp Atom.compare_eq_lt_iff.mp

/-- **Every right search gives the positions**: there is only one place to
find. -/
theorem FindsPlaces.eq_index? {search : List Atom → Atom → Option Nat}
    (h : FindsPlaces search) (α : Alphabet) (a : Atom) :
    search α.atoms.toList a = α.index? a := by
  obtain ⟨hfound, hgiven⟩ := h α.atoms.toList a α.pairwise_symbols
  cases hsearch : search α.atoms.toList a with
  | none => exact (Alphabet.index?_eq_none_iff.mpr (hgiven hsearch)).symm
  | some i =>
      exact (Alphabet.index?_eq_some_iff.mpr (hfound i hsearch)).symm

/-- To look from the left is right. -/
theorem findsPlaces_idxOf? : FindsPlaces fun l a => l.idxOf? a := by
  intro l a _
  constructor
  · intro i hi
    obtain ⟨hlt, hat, _⟩ := List.idxOf?_eq_some_iff.mp hi
    rw [List.getElem?_eq_getElem hlt, hat]
  · intro hnone
    exact List.idxOf?_eq_none_iff.mp hnone

/-! ## §3. Atoms of formulas. -/

/-- The atom stands in a literal of one of the formulas, at any depth, and the
literal is not a constant. -/
def Atom.OccursIn (a : Atom) (fs : List Formula) : Prop :=
  ∃ f ∈ fs, ∃ l : Literal, f.Mentions l ∧ l.isConstant = false ∧ l.atom = a

/-- **The inferred atoms are those that occur.** -/
theorem mem_occurringAtoms_iff_occursIn {fs : List Formula} {a : Atom} :
    a ∈ occurringAtoms fs ↔ a.OccursIn fs := by
  unfold Atom.OccursIn
  simp only [mem_occurringAtoms, Formula.mem_atoms,
    Formula.mem_occurrences_iff, and_assoc]

/-! ## §4. Alphabets. -/

/-- **Alphabets are canonical, and positions invert listing.**  A list of atoms
is refused exactly if more than 63 different ones are in it, and the message
gives their number.  Otherwise it makes an alphabet that goes through exactly
the listed atoms in strictly increasing order of their symbols, and just the
lists of the same atoms make the same one.  An atom has the position at which
it is gone through, and has none if it was not listed; any search that is right
on strictly increasing lists finds this position.  The alphabet of formulas is
that of the atoms of their literals, at any depth, without the constants. -/
theorem alphabets_are_canonical :
    (∀ (l : List Atom) (e : AlphabetError), Alphabet.ofAtoms l = .error e ↔
      63 < l.dedup.length ∧ e = .tooManyAtoms l.dedup.length) ∧
    (∀ n, (AlphabetError.tooManyAtoms n).message =
      "alphabets are limited to 63 atoms, got " ++ toString n) ∧
    (∀ l : List Atom, l.dedup.length ≤ 63 → ∃ α, Alphabet.ofAtoms l = .ok α ∧
      (∀ m, Alphabet.ofAtoms m = .ok α ↔ ∀ a, a ∈ m ↔ a ∈ l) ∧
      (∀ a, a ∈ α.atoms.toList ↔ a ∈ l) ∧
      α.atoms.toList.Pairwise (fun a b => a.symbol < b.symbol) ∧
      (∀ a i, α.index? a = some i ↔ α.atoms.toList[i]? = some a) ∧
      (∀ a, α.index? a = none ↔ a ∉ l) ∧
      ∀ search, FindsPlaces search →
        ∀ a, search α.atoms.toList a = α.index? a) ∧
    ∀ fs : List Formula, ∃ l, (∀ a : Atom, a ∈ l ↔ a.OccursIn fs) ∧
      Alphabet.ofFormulas fs = Alphabet.ofAtoms l := by
  refine ⟨?_, fun n => rfl, ?_, ?_⟩
  · intro l e
    exact Alphabet.ofAtoms_eq_error_iff
  · intro l hfit
    obtain ⟨α, hα⟩ := Alphabet.exists_ofAtoms_eq_ok hfit
    have hlisted : ∀ a, a ∈ l ↔ a ∈ α.atoms := Alphabet.ofAtoms_eq_ok_iff.mp hα
    refine ⟨α, hα, ?_, ?_, α.pairwise_symbols, ?_, ?_, ?_⟩
    · intro m
      rw [Alphabet.ofAtoms_eq_ok_iff]
      simp only [hlisted]
    · intro a
      exact (hlisted a).symm
    · intro a i
      exact Alphabet.index?_eq_some_iff
    · intro a
      rw [Alphabet.index?_eq_none_iff, hlisted a]
    · intro search hsearch a
      exact hsearch.eq_index? α a
  · intro fs
    refine ⟨fs.flatMap fun f => f.atoms.toList, ?_, rfl⟩
    intro a
    rw [← mem_occurringAtoms_iff_occursIn, occurringAtoms,
      SortedSet.mem_ofList]

/-- As many strokes as there are to count. -/
def tally (n : Nat) : Atom := ⟨String.ofList (List.replicate n 'x')⟩

/-- Tallies of different numbers are different. -/
theorem tally_injective : Function.Injective tally := by
  intro i j h
  have hlength := congrArg (fun a : Atom => a.symbol.length) h
  simpa [tally] using hlength

/-- The tallies up to 63, and one of them again. -/
def tallies : List Atom := tally 1 :: (List.range 64).map tally

theorem length_dedup_tallies : tallies.dedup.length = 64 := by
  have hmem : tally 1 ∈ (List.range 64).map tally :=
    List.mem_map.mpr ⟨1, by decide, rfl⟩
  have hnodup : ((List.range 64).map tally).Nodup :=
    List.nodup_range.map tally_injective
  rw [tallies, List.dedup_cons_of_mem hmem, hnodup.dedup, List.length_map,
    List.length_range]

/-- Penguins and birds, with birds last and penguins listed twice. -/
def penguinsTwice : List Atom := [⟨"p"⟩, ⟨"p"⟩, ⟨"b"⟩]

theorem alphabets_of_penguins_are_canonical :
    Alphabet.ofAtoms tallies = .error (.tooManyAtoms 64) ∧
      penguinsTwice.dedup.length = 2 ∧
      FindsPlaces (fun l a => l.idxOf? a) ∧
      ∃ α, Alphabet.ofAtoms penguinsTwice = .ok α ∧
        Alphabet.ofAtoms [⟨"b"⟩, ⟨"p"⟩] = .ok α ∧
        α.atoms.toList.idxOf? ⟨"p"⟩ = α.index? ⟨"p"⟩ ∧
        α.index? ⟨"f"⟩ = none := by
  obtain ⟨hlimit, _, hfits, _⟩ := alphabets_are_canonical
  have hpair : penguinsTwice.dedup.length = 2 := by decide
  obtain ⟨α, hα, hsame, _, _, _, hnone, hsearch⟩ :=
    hfits penguinsTwice (by rw [hpair]; decide)
  refine ⟨?_, hpair, findsPlaces_idxOf?, α, hα, ?_, ?_, ?_⟩
  · rw [hlimit, length_dedup_tallies]
    exact ⟨by decide, rfl⟩
  · rw [hsame]
    intro a
    simp only [penguinsTwice, List.mem_cons, List.not_mem_nil, or_false]
    rw [or_self_left, or_comm]
  · exact hsearch _ findsPlaces_idxOf? ⟨"p"⟩
  · rw [hnone]
    decide

end SystemZ
