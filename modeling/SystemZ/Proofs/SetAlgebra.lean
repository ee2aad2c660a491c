/-
  SystemZ.Proofs.SetAlgebra
  ─────────────────────────
  **KNOWLEDGE BASES ARE CANONICAL SETS UNDER A TOTAL ORDER.**

  Literals, operands, formulas, conditionals and knowledge bases are compared
  by the order of their data.  Each of these comparisons is a total order that
  finds no two different values equal.  So the increasing list of some elements
  is one list and no other, whatever list they were given in: a set is known by
  its members, and an operation by what it does to membership.

  Inclusion, sizes and the two parts of a base follow from that.  The
  classical conditionals and the others are chosen by a test, and choosing by
  a test goes through union and difference.

  Main results:
    `comparesTotally_of_transOrd`   an order without ties orders the values
    `SortedSet.perm_toList_ofList`   each of the elements, once
    `SortedSet.ofList_eq_ofList_iff`   the list is forgotten
    `SortedSet.size_union`   the size of a union
    `SortedSet.partition_union`, `partition_difference`   tests go through
    `bases_are_canonical_sets`
-/
import Mathlib.Data.List.Dedup
import SystemZ.KnowledgeBase
import SystemZ.Proofs.FiniteSets

namespace SystemZ

universe u

/-! ## §1. Total orders. -/

/-- A comparison that orders all values totally, and for which only the same
values are equal. -/
structure ComparesTotally (α : Type u) [Ord α] : Prop where
  eq_iff : ∀ a b : α, compare a b = .eq ↔ a = b
  swap : ∀ a b : α, compare b a = (compare a b).swap
  antisymm : ∀ a b : α, (compare a b).isLE = true →
    (compare b a).isLE = true → a = b
  trans : ∀ a b c : α, (compare a b).isLE = true →
    (compare b c).isLE = true → (compare a c).isLE = true
  total : ∀ a b : α, (compare a b).isLE = true ∨ (compare b a).isLE = true

/-- **A transitive comparison without ties is a total order.** -/
theorem comparesTotally_of_transOrd (α : Type u) [Ord α] [Std.TransOrd α]
    [Std.LawfulEqOrd α] : ComparesTotally α where
  eq_iff _ _ := Std.LawfulEqCmp.compare_eq_iff_eq
  swap _ _ := Std.OrientedOrd.eq_swap
  antisymm a b hab hba := by
    have heq : compare a b = .eq := Std.OrientedCmp.isLE_antisymm hab hba
    exact Std.LawfulEqCmp.compare_eq_iff_eq.mp heq
  trans _ _ _ := Std.TransOrd.isLE_trans
  total a b := by
    have hswap : compare b a = (compare a b).swap := Std.OrientedOrd.eq_swap
    rw [hswap]
    cases compare a b with
    | lt => exact .inl rfl
    | eq => exact .inl rfl
    | gt => exact .inr rfl

/-! ## §2. Lists as sets. -/

namespace SortedSet

variable {α : Type u} [Ord α] [Std.TransOrd α] [Std.LawfulEqOrd α]
  {s t : SortedSet α} {a : α}

/-- **The set of a list has each of its elements once.** -/
theorem perm_toList_ofList [DecidableEq α] (l : List α) :
    (ofList l).toList.Perm l.dedup := by
  rw [List.perm_ext_iff_of_nodup (ofList l).nodup l.nodup_dedup]
  intro a
  rw [mem_toList, mem_ofList, List.mem_dedup]

theorem size_ofList [DecidableEq α] (l : List α) :
    (ofList l).size = l.dedup.length :=
  (perm_toList_ofList l).length_eq

/-- **Order and repetition in the list are forgotten**, and nothing else. -/
theorem ofList_eq_ofList_iff {l m : List α} :
    ofList l = ofList m ↔ ∀ a, a ∈ l ↔ a ∈ m := by
  constructor
  · intro h a
    have hmem : a ∈ ofList l ↔ a ∈ ofList m := by rw [h]
    rwa [mem_ofList, mem_ofList] at hmem
  · intro h
    apply ext
    intro a
    rw [mem_ofList, mem_ofList, h a]

/-- Sets that contain the same elements are the same value. -/
theorem eq_iff_contains : s = t ↔ ∀ a, s.contains a = t.contains a := by
  constructor
  · rintro rfl a
    rfl
  · intro h
    apply ext
    intro a
    rw [← contains_iff, h a, contains_iff]

/-! ## §3. Union, difference, inclusion. -/

theorem contains_union :
    (s.union t).contains a = (s.contains a || t.contains a) := by
  rw [Bool.eq_iff_iff, Bool.or_eq_true, contains_iff, contains_iff,
    contains_iff, mem_union]

omit [Std.TransOrd α] in
theorem contains_filter {p : α → Bool} :
    (s.filter p).contains a = (s.contains a && p a) := by
  rw [Bool.eq_iff_iff, Bool.and_eq_true, contains_iff, contains_iff,
    mem_filter]

omit [Std.TransOrd α] in
theorem contains_difference :
    (s.difference t).contains a = (s.contains a && !t.contains a) :=
  contains_filter

/-- **A subset adds nothing to a union.** -/
theorem subset_iff_union_eq : s.subset t = true ↔ s.union t = t := by
  rw [subset_iff]
  constructor
  · intro h
    apply ext
    intro a
    rw [mem_union]
    exact or_iff_right_of_imp (h a)
  · intro h a ha
    rw [← h, mem_union]
    exact .inl ha

omit [Std.TransOrd α] in
/-- **A subset has nothing outside.** -/
theorem subset_iff_isEmpty_difference :
    s.subset t = true ↔ (s.difference t).isEmpty = true := by
  rw [subset_iff, isEmpty, List.isEmpty_iff, List.eq_nil_iff_forall_not_mem]
  simp only [mem_toList, mem_difference, not_and, not_not]

/-- **A union has what one set has and what the other has outside.** -/
theorem size_union (s t : SortedSet α) :
    (s.union t).size = s.size + (t.difference s).size := by
  have hsub : ∀ a ∈ s, a ∈ s.union t := by
    intro a ha
    exact mem_union.mpr (.inl ha)
  have houtside : (s.union t).difference s = t.difference s := by
    apply ext
    intro a
    rw [mem_difference, mem_difference, mem_union]
    constructor
    · rintro ⟨hs | ht, hnot⟩
      · exact absurd hs hnot
      · exact ⟨ht, hnot⟩
    · rintro ⟨ht, hnot⟩
      exact ⟨.inr ht, hnot⟩
  rw [← size_difference_add hsub, houtside, Nat.add_comm]

variable (p : α → Bool)

/-- A choice by a test goes through unions. -/
theorem filter_union (s t : SortedSet α) :
    (s.union t).filter p = (s.filter p).union (t.filter p) := by
  apply ext
  intro a
  rw [mem_filter, mem_union, mem_union, mem_filter, mem_filter,
    or_and_right]

/-- It goes through differences. -/
theorem filter_difference (s t : SortedSet α) :
    (s.difference t).filter p = (s.filter p).difference (t.filter p) := by
  apply ext
  intro a
  rw [mem_filter, mem_difference, mem_difference, mem_filter, mem_filter]
  constructor
  · rintro ⟨⟨hs, ht⟩, hp⟩
    exact ⟨⟨hs, hp⟩, fun h => ht h.1⟩
  · rintro ⟨⟨hs, hp⟩, ht⟩
    exact ⟨⟨hs, fun h => ht ⟨h, hp⟩⟩, hp⟩

/-- **What passes a test and what does not make up the set.** -/
theorem partition_fst_union_snd (s : SortedSet α) :
    (s.partition p).1.union (s.partition p).2 = s := by
  apply ext
  intro a
  show a ∈ (s.filter p).union (s.filter fun a => !p a) ↔ a ∈ s
  rw [mem_union, mem_filter, mem_filter, ← and_or_left]
  cases p a <;> simp

omit [Std.TransOrd α] [Std.LawfulEqOrd α] in
/-- Nothing both passes and does not. -/
theorem not_mem_partition_both :
    ¬ (a ∈ (s.partition p).1 ∧ a ∈ (s.partition p).2) := by
  rintro ⟨hfst, hsnd⟩
  have hyes := (mem_filter.mp hfst).2
  have hno := (mem_filter.mp hsnd).2
  rw [hyes] at hno
  cases hno

/-- What does not pass is what is left without what does. -/
theorem partition_snd_eq_difference (s : SortedSet α) :
    (s.partition p).2 = s.difference (s.partition p).1 := by
  rw [eq_iff_contains]
  intro a
  show (s.filter fun a => !p a).contains a =
    (s.difference (s.filter p)).contains a
  rw [contains_filter, contains_difference, contains_filter]
  cases s.contains a <;> rfl

theorem partition_union (s t : SortedSet α) :
    (s.union t).partition p = ((s.partition p).1.union (t.partition p).1,
      (s.partition p).2.union (t.partition p).2) :=
  Prod.ext (filter_union _ s t) (filter_union _ s t)

theorem partition_difference (s t : SortedSet α) :
    (s.difference t).partition p =
      ((s.partition p).1.difference (t.partition p).1,
        (s.partition p).2.difference (t.partition p).2) :=
  Prod.ext (filter_difference _ s t) (filter_difference _ s t)

end SortedSet

/-! ## §4. Knowledge bases. -/

/-- **Knowledge bases are canonical sets.**  Literals, operands, formulas,
conditionals and bases are totally ordered, and only the same values are equal.
The base of a list of conditionals goes through each of them once, in strictly
increasing order, and another list makes the same base exactly if it lists the
same conditionals.  Bases are equal exactly if they contain the same
conditionals; union and difference contain what their members say; being a
subset is to add nothing to the union, and to leave no difference; and a union
has as many conditionals as one base and what the other has besides.  A base
falls into its classical conditionals and the others, which have none in common,
make up the base, and go through union and difference part by part. -/
theorem bases_are_canonical_sets :
    (ComparesTotally Literal ∧ ComparesTotally Operand ∧
      ComparesTotally Formula ∧ ComparesTotally Conditional ∧
      ComparesTotally KnowledgeBase) ∧
    (∀ l : List Conditional,
      (SortedSet.ofList l).toList.Perm l.dedup ∧
      (SortedSet.ofList l).toList.Pairwise (fun s t => compare s t = .lt) ∧
      ∀ m : List Conditional,
        SortedSet.ofList l = SortedSet.ofList m ↔ ∀ s, s ∈ l ↔ s ∈ m) ∧
    (∀ a b : KnowledgeBase,
      (a = b ↔ ∀ s, a.contains s = b.contains s) ∧
      (∀ s, (a.union b).contains s = (a.contains s || b.contains s)) ∧
      (∀ s, (a.difference b).contains s = (a.contains s && !b.contains s)) ∧
      (a.subset b = true ↔ a.union b = b) ∧
      (a.subset b = true ↔ (a.difference b).isEmpty = true) ∧
      (a.union b).size = a.size + (b.difference a).size) ∧
    (∀ a : KnowledgeBase,
      (∀ s, a.separate.1.contains s = (a.contains s && s.isClassical)) ∧
      (∀ s, a.separate.2.contains s = (a.contains s && !s.isClassical)) ∧
      (∀ s, ¬ (s ∈ a.separate.1 ∧ s ∈ a.separate.2)) ∧
      a.separate.1.union a.separate.2 = a ∧
      a.separate.2 = a.difference a.separate.1) ∧
    ∀ a b : KnowledgeBase,
      KnowledgeBase.separate (a.union b) =
        (a.separate.1.union b.separate.1,
          a.separate.2.union b.separate.2) ∧
      KnowledgeBase.separate (a.difference b) =
        (a.separate.1.difference b.separate.1,
          a.separate.2.difference b.separate.2) := by
  refine ⟨⟨comparesTotally_of_transOrd _, comparesTotally_of_transOrd _,
    comparesTotally_of_transOrd _, comparesTotally_of_transOrd _,
    comparesTotally_of_transOrd _⟩, ?_, ?_, ?_, ?_⟩
  · intro l
    exact ⟨SortedSet.perm_toList_ofList l, (SortedSet.ofList l).sorted,
      fun m => SortedSet.ofList_eq_ofList_iff⟩
  · intro a b
    exact ⟨SortedSet.eq_iff_contains, fun s => SortedSet.contains_union,
      fun s => SortedSet.contains_difference, SortedSet.subset_iff_union_eq,
      SortedSet.subset_iff_isEmpty_difference, SortedSet.size_union a b⟩
  · intro a
    exact ⟨fun s => SortedSet.contains_filter,
      fun s => SortedSet.contains_filter,
      fun s => SortedSet.not_mem_partition_both _,
      SortedSet.partition_fst_union_snd _ a,
      SortedSet.partition_snd_eq_difference _ a⟩
  · intro a b
    exact ⟨SortedSet.partition_union _ a b,
      SortedSet.partition_difference _ a b⟩

end SystemZ
