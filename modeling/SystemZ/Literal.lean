/-
  SystemZ.Literal
  ───────────────
  **LITERALS: SIGNED ATOMS AND THE TWO CONSTANTS.**

  `ofAtom` is the ordinary way to a literal; on a reserved symbol it gives
  the constant that the symbol writes, so that `¬⊤` is `⊥`.  The constructor
  `signed` does not look at the symbol, and can hold a reserved one as if it
  were an ordinary atom: such literals are `isReserved`, and formulas built
  part by part refuse them.

  Literals are ordered signed ones first, by atom and then sign, then `⊤`,
  then `⊥`.
-/
import SystemZ.Atom
import SystemZ.Order

namespace SystemZ

/-- A literal. -/
inductive Literal where
  /-- An atom (sign `true`) or its negation (sign `false`). -/
  | signed (atom : Atom) (sign : Bool)
  /-- The constant true. -/
  | top
  /-- The constant false. -/
  | bot
  deriving DecidableEq, Inhabited

namespace Literal

/-! ## §1. Construction. -/

/-- The literal of an atom under a sign; reserved symbols give constants. -/
def ofAtom (a : Atom) (sign : Bool) : Literal :=
  if a.isReserved then
    if (a.symbol == Atom.topSymbol) == sign then top else bot
  else signed a sign

/-- The literal that an atom is true. -/
def positive (a : Atom) : Literal := ofAtom a true

/-- The literal that an atom is false. -/
def negative (a : Atom) : Literal := ofAtom a false

/-- The complementary literal.  A signed literal is rebuilt by `ofAtom`, so
the complement of one on a reserved symbol is a constant. -/
def negate : Literal → Literal
  | signed a sign => ofAtom a (!sign)
  | top => bot
  | bot => top

/-! ## §2. Parts and meaning. -/

/-- The atom of a literal; a constant answers with the atom of its symbol. -/
def atom : Literal → Atom
  | signed a _ => a
  | top => ⟨Atom.topSymbol⟩
  | bot => ⟨Atom.botSymbol⟩

/-- The sign of a literal; `⊤` is positive and `⊥` is negative. -/
def sign : Literal → Bool
  | signed _ s => s
  | top => true
  | bot => false

/-- Whether the literal is `⊤` or `⊥`. -/
def isConstant : Literal → Bool
  | signed .. => false
  | top | bot => true

/-- Whether the literal uses a reserved symbol as an ordinary atom. -/
def isReserved : Literal → Bool
  | signed a _ => a.isReserved
  | top | bot => false

/-- The truth value of a literal, given those of the atoms. -/
def holds (value : Atom → Bool) : Literal → Bool
  | signed a s => value a == s
  | top => true
  | bot => false

/-- The printed form: the symbol, behind `¬` if the sign is negative. -/
def text : Literal → String
  | signed a true => a.symbol
  | signed a false => "¬" ++ a.symbol
  | top => Atom.topSymbol
  | bot => Atom.botSymbol

/-! ## §3. Order. -/

/-- Signed literals by atom and sign, then `⊤`, then `⊥`. -/
def cmp : Literal → Literal → Ordering
  | signed a s, signed b t => (compare a b).then (compare s t)
  | signed .., _ => .lt
  | _, signed .. => .gt
  | top, top => .eq
  | top, bot => .lt
  | bot, top => .gt
  | bot, bot => .eq

instance : Ord Literal := ⟨cmp⟩

theorem compare_def (k l : Literal) : compare k l = cmp k l := rfl

theorem cmp_eq_iff {k l : Literal} : cmp k l = .eq ↔ k = l := by
  cases k <;> cases l <;>
    simp [cmp, Ordering.then_eq_eq, Std.LawfulEqCmp.compare_eq_iff_eq]

theorem cmp_swap (k l : Literal) : cmp k l = (cmp l k).swap := by
  cases k <;> cases l <;> simp only [cmp, Ordering.swap_then] <;> try rfl
  case signed.signed a s b t =>
    rw [(Std.OrientedOrd.eq_swap : compare a b = (compare b a).swap),
      (Std.OrientedOrd.eq_swap : compare s t = (compare t s).swap)]

theorem cmp_lt_trans (k l m : Literal) :
    cmp k l = .lt → cmp l m = .lt → cmp k m = .lt := by
  cases k <;> cases l <;> cases m
  case signed.signed.signed a s b t c u =>
    exact then_lt_trans (fun _ _ => Std.LawfulEqCmp.compare_eq_iff_eq)
      Std.TransCmp.lt_trans Std.TransCmp.lt_trans
  all_goals simp [cmp]

instance : Std.OrientedOrd Literal := ⟨cmp_swap _ _⟩

instance : Std.LawfulEqOrd Literal where
  compare_self := cmp_eq_iff.mpr rfl
  eq_of_compare := cmp_eq_iff.mp

instance : Std.TransOrd Literal := transOrd_of_lt_trans cmp_lt_trans

end Literal

end SystemZ
