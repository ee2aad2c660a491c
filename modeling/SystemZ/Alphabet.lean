/-
  SystemZ.Alphabet
  ────────────────
  **ALPHABETS: AT MOST 63 ATOMS, EACH WITH A POSITION.**

  An alphabet is a set of atoms small enough that one mask holds a truth value
  for each, and that the number of its valuations fits a word too.  The
  position of an atom is its place in the increasing order.

  Main results:
    `index?_eq_some_iff`  looking up a position inverts listing the atoms
    `index?_eq_none_iff`  exactly the foreign atoms have no position
-/
import SystemZ.Formula.Basic
import SystemZ.Mask

namespace SystemZ

/-- The largest size of an alphabet. -/
def maxAlphabetSize : Nat := 63

/-- What can go wrong with the atoms given for an alphabet or a valuation. -/
inductive AlphabetError where
  /-- More atoms than an alphabet may have: this many different ones. -/
  | tooManyAtoms (count : Nat)
  /-- An atom from outside the alphabet. -/
  | foreignAtom (a : Atom)
  deriving DecidableEq

/-- The wording of an error. -/
def AlphabetError.message : AlphabetError → String
  | tooManyAtoms n =>
      "alphabets are limited to " ++ toString maxAlphabetSize ++
        " atoms, got " ++ toString n
  | foreignAtom a => "atom \"" ++ a.symbol ++ "\" is not in the alphabet"

/-- A set of at most 63 atoms. -/
structure Alphabet where
  atoms : SortedSet Atom
  size_le : atoms.size ≤ maxAlphabetSize
  deriving DecidableEq

namespace Alphabet

/-! ## §1. Construction. -/

/-- The alphabet of a set of atoms, if there are not too many. -/
def ofSet (s : SortedSet Atom) : Except AlphabetError Alphabet :=
  if h : s.size ≤ maxAlphabetSize then .ok ⟨s, h⟩
  else .error (.tooManyAtoms s.size)

/-- The alphabet of the atoms in a list, in any order and with repetitions. -/
def ofAtoms (l : List Atom) : Except AlphabetError Alphabet :=
  ofSet (.ofList l)

/-- The alphabet of the atoms that occur in some formulas. -/
def ofFormulas (fs : List Formula) : Except AlphabetError Alphabet :=
  ofAtoms (fs.flatMap fun f => f.atoms.toList)

/-- The given alphabet, or else that of the atoms of some formulas. -/
def orOfFormulas (given : Option Alphabet) (fs : List Formula) :
    Except AlphabetError Alphabet :=
  match given with
  | some a => .ok a
  | none => ofFormulas fs

/-- The alphabet without atoms. -/
def empty : Alphabet := ⟨∅, Nat.zero_le _⟩

instance : Inhabited Alphabet := ⟨empty⟩

/-- Alphabets compare as their sets of atoms do. -/
instance : Ord Alphabet where
  compare a b := compare a.atoms b.atoms

/-! ## §2. Positions. -/

/-- The number of atoms. -/
def size (α : Alphabet) : Nat := α.atoms.size

/-- The position of an atom, if it belongs to the alphabet. -/
def index? (α : Alphabet) (a : Atom) : Option Nat :=
  α.atoms.toList.idxOf? a

/-- Whether an atom belongs to the alphabet. -/
def contains (α : Alphabet) (a : Atom) : Bool := (α.index? a).isSome

theorem size_lt (α : Alphabet) : α.size < 64 :=
  Nat.lt_succ_of_le α.size_le

/-- **Looking up a position inverts listing the atoms.** -/
theorem index?_eq_some_iff {α : Alphabet} {a : Atom} {i : Nat} :
    α.index? a = some i ↔ α.atoms.toList[i]? = some a := by
  rw [index?, List.idxOf?_eq_some_iff, List.getElem?_eq_some_iff]
  constructor
  · exact fun ⟨hi, ha, _⟩ => ⟨hi, ha⟩
  · refine fun ⟨hi, ha⟩ => ⟨hi, ha, fun j hj hja => ?_⟩
    have hne := List.pairwise_iff_getElem.mp α.atoms.nodup j i (by omega) hi hj
    exact hne (hja.trans ha.symm)

theorem index?_lt {α : Alphabet} {a : Atom} {i : Nat}
    (h : α.index? a = some i) : i < α.size := by
  rw [index?_eq_some_iff] at h
  exact (List.getElem?_eq_some_iff.mp h).1

theorem index?_eq_none_iff {α : Alphabet} {a : Atom} :
    α.index? a = none ↔ a ∉ α.atoms := by
  rw [index?, List.idxOf?_eq_none_iff, SortedSet.mem_toList]

/-! ## §3. Masks. -/

/-- The mask of all positions. -/
def fullMask (α : Alphabet) : Mask := .below α.size

/-- The number of valuations, `2 ^ n` for `n` atoms. -/
def valuationCount (α : Alphabet) : UInt64 := Mask.bit α.size

theorem toNat_fullMask (α : Alphabet) :
    α.fullMask.toNat = 1 <<< α.size - 1 := Mask.toNat_below α.size_lt

theorem toNat_valuationCount (α : Alphabet) :
    α.valuationCount.toNat = 1 <<< α.size := Mask.toNat_bit α.size_lt

end Alphabet

end SystemZ
