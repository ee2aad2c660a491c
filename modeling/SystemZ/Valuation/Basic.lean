/-
  SystemZ.Valuation.Basic
  ───────────────────────
  **VALUATIONS OF AN ALPHABET.**

  A valuation says which atoms of its alphabet are true and which of them it
  assigns at all.  An atom that it does not assign, or that lies outside the
  alphabet, is false.  So what a valuation MEANS is its alphabet and its true
  atoms, and equality (`==`) and order look at these alone.

  Two masks hold it; every true position is assigned, and every assigned one
  lies in the alphabet.
-/
import SystemZ.Alphabet
import SystemZ.Formula.Build

namespace SystemZ

/-- A truth assignment to atoms of an alphabet. -/
structure Valuation where
  alphabet : Alphabet
  /-- The positions that have a truth value of their own. -/
  assigned : Mask
  /-- The positions that are true. -/
  trueBits : Mask
  true_assigned : trueBits &&& assigned = trueBits
  assigned_le : assigned ≤ alphabet.fullMask

namespace Valuation

/-! ## §1. Construction. -/

theorem and_fullMask {α : Alphabet} {m : Mask} (h : m ≤ α.fullMask) :
    m &&& α.fullMask = m := by
  have hle := UInt64.le_iff_toNat_le.mp h
  have hpos : 0 < 2 ^ α.size := Nat.two_pow_pos α.size
  rw [α.toNat_fullMask, Nat.one_shiftLeft] at hle
  apply UInt64.toNat.inj
  rw [UInt64.toNat_and, α.toNat_fullMask, Nat.one_shiftLeft,
    Nat.and_two_pow_sub_one_eq_mod, Nat.mod_eq_of_lt (by omega)]

/-- The valuation that assigns every atom, the ones of `m` as true. -/
def complete (α : Alphabet) (m : Mask) (h : m ≤ α.fullMask) : Valuation where
  alphabet := α
  assigned := α.fullMask
  trueBits := m
  true_assigned := and_fullMask h
  assigned_le := UInt64.le_refl _

/-- The valuation that assigns the atoms of `m` alone, as true. -/
def positive (α : Alphabet) (m : Mask) (h : m ≤ α.fullMask) : Valuation where
  alphabet := α
  assigned := m
  trueBits := m
  true_assigned := UInt64.and_self
  assigned_le := h

/-- The mask of some atoms; the first foreign one is an error. -/
def maskOf (α : Alphabet) : List Atom → Except AlphabetError Mask
  | [] => .ok 0
  | a :: as =>
      match α.index? a with
      | none => .error (.foreignAtom a)
      | some i =>
          match maskOf α as with
          | .error e => .error e
          | .ok m => .ok (Mask.bit i ||| m)

theorem maskOf_le {α : Alphabet} {l : List Atom} {m : Mask}
    (h : maskOf α l = .ok m) : m ≤ α.fullMask := by
  have hpos : 0 < 2 ^ α.size := Nat.two_pow_pos α.size
  suffices m.toNat < 2 ^ α.size by
    rw [UInt64.le_iff_toNat_le, α.toNat_fullMask, Nat.one_shiftLeft]
    omega
  induction l generalizing m with
  | nil => cases h; exact hpos
  | cons a as ih =>
      unfold maskOf at h
      split at h
      · cases h
      case h_2 i hi =>
        split at h
        · cases h
        case h_2 rest hrest =>
          cases h
          have hlt := α.index?_lt hi
          have hsize := α.size_lt
          rw [UInt64.toNat_or, Mask.toNat_bit (by omega), Nat.one_shiftLeft]
          exact Nat.or_lt_two_pow (Nat.pow_lt_pow_right (by decide) hlt)
            (ih hrest)

/-- The complete valuation that makes exactly the listed atoms true. -/
def ofTrueAtoms (α : Alphabet) (l : List Atom) :
    Except AlphabetError Valuation :=
  match h : maskOf α l with
  | .error e => .error e
  | .ok m => .ok (complete α m (maskOf_le h))

/-! ## §2. Reading. -/

/-- The truth value that an atom is assigned, if it is. -/
def get? (v : Valuation) (a : Atom) : Option Bool :=
  match v.alphabet.index? a with
  | some i => if v.assigned.has i then some (v.trueBits.has i) else none
  | none => none

/-- The truth value of an atom; without an assigned one it is false. -/
def value (v : Valuation) (a : Atom) : Bool :=
  match v.alphabet.index? a with
  | some i => v.trueBits.has i
  | none => false

/-- Whether every atom of the alphabet is assigned. -/
def isComplete (v : Valuation) : Bool := v.assigned == v.alphabet.fullMask

/-- The atoms of the alphabet whose position passes `p`, in order. -/
def atomsWhere (v : Valuation) (p : Nat → Bool) : List Atom :=
  (v.alphabet.atoms.toList.zipIdx.filter fun x => p x.2).map Prod.fst

/-- The true atoms in increasing order. -/
def trueAtoms (v : Valuation) : List Atom :=
  v.atomsWhere fun i => v.trueBits.has i

/-- The false atoms of the alphabet in increasing order. -/
def falseAtoms (v : Valuation) : List Atom :=
  v.atomsWhere fun i => !v.trueBits.has i

/-- Whether a formula is true. -/
def satisfies (v : Valuation) (f : Formula) : Bool := f.holds v.value

/-- Whether every formula of a list is true. -/
def satisfiesAll (v : Valuation) (fs : List Formula) : Bool :=
  fs.all v.satisfies

/-! ## §3. Equality, order, printed form. -/

/-- Valuations are equal when alphabet and true atoms are. -/
instance : BEq Valuation where
  beq v w := v.trueBits == w.trueBits && v.alphabet == w.alphabet

/-- By alphabet, then by the mask of the true atoms as a number. -/
instance : Ord Valuation where
  compare v w :=
    (compare v.alphabet w.alphabet).then (compare v.trueBits w.trueBits)

/-- The symbols of some atoms with blanks between them. -/
def symbolsText (l : List Atom) : String :=
  " ".intercalate (l.map Atom.symbol)

/-- The printed form: the true atoms, then the false ones, in braces. -/
def text (v : Valuation) : String :=
  "\x7b " ++ symbolsText v.trueAtoms ++ " \x7d \x7b " ++
    symbolsText v.falseAtoms ++ " \x7d"

end Valuation

end SystemZ
