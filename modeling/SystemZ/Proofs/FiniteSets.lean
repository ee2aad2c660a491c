/-
  SystemZ.Proofs.FiniteSets
  ─────────────────────────
  **SORTED SETS SEEN AS MATHEMATICAL SETS.**

  A sorted set is read as the set of its members, and known by it.  Over that
  reading sizes are monotone, a fallible filter succeeds when its test does and
  fails when its test fails, and the subsets of a sorted set are exactly the
  sublists of its increasing list.  Images are images of sets; they are never
  larger, and an injective function keeps the size.

  Main results:
    `size_le_of_subset`         a subset has at most as many elements
    `exists_tryFilter_eq_ok`    a filter fails only if its test does
    `exists_of_tryFilterList_eq_error`   and then as its test does
    `toList_sublist_of_subset`  a subset's list is a sublist
    `toList_ofList_of_sublist`  and every sublist is the list of its set
    `exists_map_eq_of_subset`   a part of an image is the image of a part
    `size_map_of_injective`     the size of an image
-/
import Mathlib.Data.List.Basic
import Mathlib.Data.List.Nodup
import Mathlib.Data.Set.Insert
import SystemZ.SortedSet.Lemmas

namespace SystemZ

namespace SortedSet

universe u w

variable {α : Type u} [Ord α]

/-- The members, as a set. -/
def toSet (s : SortedSet α) : Set α := {a | a ∈ s}

@[simp] theorem mem_toSet {a : α} {s : SortedSet α} : a ∈ s.toSet ↔ a ∈ s :=
  Iff.rfl

theorem eq_empty_of_forall_not_mem {s : SortedSet α} (h : ∀ a, a ∉ s) :
    s = ∅ :=
  toList_injective (List.eq_nil_iff_forall_not_mem.mpr h)

/-! ## §1. Filters that may fail. -/

omit [Ord α] in
theorem exists_tryFilterList_eq_ok {ε : Type w} {p : α → Except ε Bool}
    {l : List α} (h : ∀ a ∈ l, ∃ b, p a = .ok b) :
    ∃ kept, tryFilterList p l = .ok kept := by
  induction l with
  | nil => exact ⟨[], rfl⟩
  | cons a as ih =>
      obtain ⟨b, hb⟩ := h a List.mem_cons_self
      obtain ⟨rest, hrest⟩ := ih fun x hx => h x (List.mem_cons_of_mem a hx)
      refine ⟨if b then a :: rest else rest, ?_⟩
      rw [tryFilterList, hb, hrest]

/-- A fallible filter fails only if its test fails at some element. -/
theorem exists_tryFilter_eq_ok {ε : Type w} {p : α → Except ε Bool}
    {s : SortedSet α} (h : ∀ a ∈ s, ∃ b, p a = .ok b) :
    ∃ kept, s.tryFilter p = .ok kept := by
  obtain ⟨kept, hkept⟩ := exists_tryFilterList_eq_ok h
  unfold tryFilter
  split
  case h_1 e he =>
    rw [hkept] at he
    cases he
  case h_2 rest hrest => exact ⟨_, rfl⟩

omit [Ord α] in
/-- A fallible filter that succeeds has tested every element. -/
theorem exists_eq_ok_of_tryFilterList {ε : Type w} {p : α → Except ε Bool}
    {l kept : List α} (h : tryFilterList p l = .ok kept) {a : α}
    (ha : a ∈ l) : ∃ b, p a = .ok b := by
  induction l generalizing kept with
  | nil => cases ha
  | cons x xs ih =>
      unfold tryFilterList at h
      split at h
      case h_1 => cases h
      case h_2 keep hkeep =>
        split at h
        case h_1 => cases h
        case h_2 rest hrest =>
          rcases List.mem_cons.mp ha with rfl | ha
          · exact ⟨keep, hkeep⟩
          · exact ih hrest ha

omit [Ord α] in
/-- One that fails has met an element at which its test fails. -/
theorem exists_of_tryFilterList_eq_error {ε : Type w} {p : α → Except ε Bool}
    {l : List α} {e : ε} (h : tryFilterList p l = .error e) :
    ∃ a ∈ l, p a = .error e := by
  induction l with
  | nil => cases h
  | cons x xs ih =>
      unfold tryFilterList at h
      split at h
      case h_1 e' he' =>
        cases h
        exact ⟨x, .head xs, he'⟩
      case h_2 =>
        split at h
        case h_1 e' hrest =>
          cases h
          obtain ⟨a, ha, hfail⟩ := ih hrest
          exact ⟨a, .tail x ha, hfail⟩
        case h_2 => cases h

theorem tryFilter_eq_error {ε : Type w} {p : α → Except ε Bool}
    {s : SortedSet α} {e : ε} (h : tryFilterList p s.toList = .error e) :
    s.tryFilter p = .error e := by
  unfold tryFilter
  split
  case h_1 e' he' =>
    rw [h] at he'
    cases he'
    rfl
  case h_2 rest hrest =>
    rw [h] at hrest
    cases hrest

/-! ## §2. Subsets. -/

theorem size_le_of_subset [Std.OrientedOrd α] {s t : SortedSet α}
    (h : ∀ a ∈ s, a ∈ t) : s.size ≤ t.size :=
  s.nodup.length_le_of_subset h

section Lawful

variable [Std.TransOrd α] [Std.LawfulEqOrd α]

omit [Std.LawfulEqOrd α] in
/-- Sorted sets are known by their members. -/
theorem toSet_injective : Function.Injective (@toSet α _) :=
  fun _ _ h => ext fun a => Set.ext_iff.mp h a

theorem ofList_toList (s : SortedSet α) : ofList s.toList = s :=
  ext fun _ => mem_ofList

@[simp] theorem empty_union (s : SortedSet α) :
    (∅ : SortedSet α).union s = s := by
  apply ext
  intro a
  rw [mem_union]
  exact or_iff_right (not_mem_empty a)

theorem union_ofList_cons (s : SortedSet α) (a : α) (l : List α) :
    s.union (ofList (a :: l)) = (s.insert a).union (ofList l) := by
  apply ext
  intro x
  simp only [mem_union, mem_insert, mem_ofList, List.mem_cons]
  rw [or_left_comm, or_assoc]

/-- A subset is what a filter by membership leaves of the larger set. -/
theorem filter_contains_of_subset {s t : SortedSet α} (h : ∀ a ∈ s, a ∈ t) :
    t.filter s.contains = s := by
  apply ext
  intro a
  rw [mem_filter, contains_iff]
  exact ⟨fun ha => ha.2, fun ha => ⟨h a ha, ha⟩⟩

/-- The list of a subset is a sublist. -/
theorem toList_sublist_of_subset {s t : SortedSet α} (h : ∀ a ∈ s, a ∈ t) :
    s.toList.Sublist t.toList := by
  rw [← filter_contains_of_subset h]
  exact List.filter_sublist

/-- A subset and what lies outside it make up the size of the set. -/
theorem size_difference_add {s t : SortedSet α} (h : ∀ a ∈ s, a ∈ t) :
    (t.difference s).size + s.size = t.size := by
  have hsplit := t.toList.length_eq_length_filter_add s.contains
  have hinside : t.toList.filter s.contains = s.toList :=
    congrArg toList (filter_contains_of_subset h)
  rw [hinside] at hsplit
  rw [Nat.add_comm]
  exact hsplit.symm

/-- Every sublist of an increasing list is the list of the set it makes. -/
theorem toList_ofList_of_sublist {s : SortedSet α} {l : List α}
    (h : l.Sublist s.toList) : (ofList l).toList = l := by
  have hset : ofList l = ⟨l, s.sorted.sublist h⟩ := by
    apply ext
    intro a
    rw [mem_ofList, mem_def]
  rw [hset]

/-- A subset that is not smaller is the whole set. -/
theorem eq_of_subset_of_size_le {s t : SortedSet α} (h : ∀ a ∈ s, a ∈ t)
    (hsize : t.size ≤ s.size) : s = t :=
  toList_injective ((toList_sublist_of_subset h).eq_of_length_le hsize)

end Lawful

/-! ## §3. Images. -/

section Images

universe v

variable {β : Type v} [Ord β] [Std.TransOrd β] [Std.LawfulEqOrd β]
  {f : α → β} {s : SortedSet α}

theorem toSet_map (f : α → β) (s : SortedSet α) :
    (s.map f).toSet = f '' s.toSet := by
  ext b
  exact mem_map

/-- An image has at most as many elements as what it is made of. -/
theorem size_map_le (f : α → β) (s : SortedSet α) :
    (s.map f).size ≤ s.size := by
  have hsub : (s.map f).toList ⊆ s.toList.map f := fun _ hb =>
    List.mem_map.mpr (mem_map.mp hb)
  calc (s.map f).size ≤ (s.toList.map f).length :=
        (s.map f).nodup.length_le_of_subset hsub
    _ = s.size := List.length_map f

/-- **An injective function keeps the number of elements.** -/
theorem size_map_of_injective [Std.OrientedOrd α] (hf : f.Injective) :
    (s.map f).size = s.size := by
  have hsub : s.toList.map f ⊆ (s.map f).toList := fun _ hb =>
    mem_map.mpr (List.mem_map.mp hb)
  refine Nat.le_antisymm (size_map_le f s) ?_
  calc s.size = (s.toList.map f).length := (List.length_map f).symm
    _ ≤ (s.map f).size := (s.nodup.map hf).length_le_of_subset hsub

/-- **A part of an image is the image of a part.** -/
theorem exists_map_eq_of_subset {t : SortedSet β}
    (h : t.toSet ⊆ (s.map f).toSet) :
    ∃ u : SortedSet α, u.toSet ⊆ s.toSet ∧ u.map f = t := by
  refine ⟨s.filter fun a => t.contains (f a), ?_, ?_⟩
  · intro a ha
    exact (mem_filter.mp ha).1
  · apply ext
    intro b
    simp only [mem_map, mem_filter, contains_iff]
    constructor
    · intro hb
      obtain ⟨a, ⟨_, hat⟩, rfl⟩ := hb
      exact hat
    · intro hb
      obtain ⟨a, ha, rfl⟩ := mem_map.mp (h hb)
      exact ⟨a, ⟨ha, hb⟩, rfl⟩

theorem map_union [Std.TransOrd α] [Std.LawfulEqOrd α] (f : α → β)
    (s t : SortedSet α) : (s.union t).map f = (s.map f).union (t.map f) := by
  apply ext
  intro b
  simp only [mem_map, mem_union, or_and_right, exists_or]

end Images

end SortedSet

end SystemZ
