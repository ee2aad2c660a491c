/-
  SystemZ.SortedSet.Basic
  ───────────────────────
  **FINITE SETS IN CANONICAL FORM.**

  A finite set over an ordered type is stored as the strictly increasing list
  of its elements.  The order is part of the type's meaning: elements are
  visited, printed and compared in it, and two sets with the same elements
  are the SAME value, so equality of sets is equality of data.

      insert, ofList, union, map     build a set and restore the order
      filter, tryFilter, difference  drop elements and keep the order
      contains, subset               decide membership and inclusion
-/

namespace SystemZ

universe u v w

/-! ## §1. The type. -/

/-- A finite set: its elements, each once, in increasing order. -/
structure SortedSet (α : Type u) [Ord α] where
  /-- The elements in increasing order. -/
  toList : List α
  sorted : toList.Pairwise (fun a b => compare a b = .lt)

namespace SortedSet

variable {α : Type u} {β : Type v} [Ord α] [Ord β]

instance [DecidableEq α] : DecidableEq (SortedSet α) := fun s t =>
  decidable_of_iff (s.toList = t.toList)
    ⟨fun h => by cases s; cases t; cases h; rfl, fun h => h ▸ rfl⟩

instance : Membership α (SortedSet α) where
  mem s a := a ∈ s.toList

/-- Sets compare as their increasing lists do: the first difference decides,
and a proper initial part is less. -/
instance : Ord (SortedSet α) where
  compare s t := compare s.toList t.toList

/-- The set without elements. -/
def empty : SortedSet α := ⟨[], .nil⟩

instance : EmptyCollection (SortedSet α) := ⟨empty⟩

instance : Inhabited (SortedSet α) := ⟨empty⟩

/-- The number of elements. -/
def size (s : SortedSet α) : Nat := s.toList.length

/-- Whether there is no element. -/
def isEmpty (s : SortedSet α) : Bool := s.toList.isEmpty

/-- Whether `a` is an element. -/
def contains (s : SortedSet α) (a : α) : Bool :=
  s.toList.any fun b => compare a b == .eq

/-- Whether every element of `s` is an element of `t`. -/
def subset (s t : SortedSet α) : Bool := s.toList.all t.contains

/-! ## §2. Insertion. -/

/-- Puts `a` in its place in an increasing list, unless it is there already. -/
def insertSorted (a : α) : List α → List α
  | [] => [a]
  | b :: bs =>
      match compare a b with
      | .lt => a :: b :: bs
      | .eq => b :: bs
      | .gt => b :: insertSorted a bs

/-- Insertion adds nothing but the inserted element. -/
theorem eq_or_mem_of_mem_insertSorted {a x : α} {l : List α}
    (h : x ∈ insertSorted a l) : x = a ∨ x ∈ l := by
  induction l with
  | nil => simpa [insertSorted] using h
  | cons b bs ih =>
      unfold insertSorted at h
      split at h
      · simpa using h
      · exact .inr h
      · rcases List.mem_cons.mp h with rfl | h
        · exact .inr (.head _)
        · exact (ih h).imp_right (.tail _)

variable [Std.TransOrd α]

/-- Insertion keeps a list increasing. -/
theorem pairwise_insertSorted {a : α} {l : List α}
    (h : l.Pairwise (fun x y => compare x y = .lt)) :
    (insertSorted a l).Pairwise (fun x y => compare x y = .lt) := by
  induction l with
  | nil => simp [insertSorted]
  | cons b bs ih =>
      obtain ⟨hb, hbs⟩ := List.pairwise_cons.mp h
      unfold insertSorted
      split
      case h_1 hab =>
        refine List.pairwise_cons.mpr ⟨fun y hy => ?_, h⟩
        rcases List.mem_cons.mp hy with rfl | hy
        · exact hab
        · exact Std.TransCmp.lt_trans hab (hb y hy)
      case h_2 => exact h
      case h_3 hab =>
        refine List.pairwise_cons.mpr ⟨fun y hy => ?_, ih hbs⟩
        rcases eq_or_mem_of_mem_insertSorted hy with rfl | hy
        · exact Std.OrientedCmp.gt_iff_lt.mp hab
        · exact hb y hy

/-- The set with `a` added. -/
def insert (a : α) (s : SortedSet α) : SortedSet α :=
  ⟨insertSorted a s.toList, pairwise_insertSorted s.sorted⟩

/-- The set of the elements of a list, in any order and with repetitions. -/
def ofList (l : List α) : SortedSet α := l.foldr insert empty

/-- The elements of either set. -/
def union (s t : SortedSet α) : SortedSet α := t.toList.foldr insert s

/-- The images of the elements under `f`. -/
def map [Std.TransOrd β] (f : α → β) (s : SortedSet α) : SortedSet β :=
  ofList (s.toList.map f)

omit [Std.TransOrd α]

/-! ## §3. Selection. -/

/-- The elements that pass the test `p`. -/
def filter (p : α → Bool) (s : SortedSet α) : SortedSet α :=
  ⟨s.toList.filter p, s.sorted.filter p⟩

/-- The elements of `s` outside `t`. -/
def difference (s t : SortedSet α) : SortedSet α :=
  s.filter fun a => !t.contains a

/-- The elements that pass `p`, and those that do not. -/
def partition (p : α → Bool) (s : SortedSet α) : SortedSet α × SortedSet α :=
  (s.filter p, s.filter fun a => !p a)

/-- Filters by a test that may fail; the first failure, from the left, is
the answer. -/
def tryFilterList {ε : Type w} (p : α → Except ε Bool) :
    List α → Except ε (List α)
  | [] => .ok []
  | a :: as =>
      match p a with
      | .error e => .error e
      | .ok keep =>
          match tryFilterList p as with
          | .error e => .error e
          | .ok kept => .ok (if keep then a :: kept else kept)

omit [Ord α] in
/-- What a fallible filter keeps is a part of the list, in its order. -/
theorem tryFilterList_sublist {ε : Type w} {p : α → Except ε Bool}
    {l kept : List α} (h : tryFilterList p l = .ok kept) :
    kept.Sublist l := by
  induction l generalizing kept with
  | nil => cases h; exact .slnil
  | cons a as ih =>
      unfold tryFilterList at h
      split at h
      · cases h
      · split at h
        · cases h
        case h_2 keep _ _ rest hrest =>
          cases h
          cases keep
          · exact (ih hrest).cons a
          · exact (ih hrest).cons_cons a

/-- The elements that pass a test that may fail; elements are tested in
increasing order, and the first failure is the answer. -/
def tryFilter {ε : Type w} (p : α → Except ε Bool) (s : SortedSet α) :
    Except ε (SortedSet α) :=
  match h : tryFilterList p s.toList with
  | .error e => .error e
  | .ok kept => .ok ⟨kept, s.sorted.sublist (tryFilterList_sublist h)⟩

end SortedSet

end SystemZ
