/-
  SystemZ.SortedSet.Lemmas
  ────────────────────────
  **WHAT EACH SET OPERATION DOES TO MEMBERSHIP.**

  One lemma per operation, read through `∈`; after them nobody unfolds an
  operation.  The order's equality must be equality of elements
  (`LawfulEqOrd`), as it is for every type of this library.

  Main results:
    `SortedSet.ext`           sets with the same members are equal
    `SortedSet.mem_ofList`    a list's set has exactly the list's members
    `SortedSet.mem_tryFilter` what a fallible filter keeps
-/
import SystemZ.SortedSet.Basic

namespace SystemZ

namespace SortedSet

universe u v w

variable {α : Type u} {β : Type v} [Ord α] [Ord β]

theorem mem_def {a : α} {s : SortedSet α} : a ∈ s ↔ a ∈ s.toList := Iff.rfl

@[simp] theorem mem_toList {a : α} {s : SortedSet α} :
    a ∈ s.toList ↔ a ∈ s := Iff.rfl

@[simp] theorem not_mem_empty (a : α) : a ∉ (empty : SortedSet α) :=
  List.not_mem_nil

/-- Sets with the same increasing list are the same set. -/
theorem toList_injective {s t : SortedSet α} (h : s.toList = t.toList) :
    s = t := by
  cases s; cases t; cases h; rfl

/-! ## §1. Selection. -/

@[simp] theorem mem_filter {p : α → Bool} {s : SortedSet α} {a : α} :
    a ∈ s.filter p ↔ a ∈ s ∧ p a = true := List.mem_filter

omit [Ord α] in
/-- A fallible filter that succeeds has tested every element, and keeps those
that pass. -/
theorem mem_tryFilterList {ε : Type w} {p : α → Except ε Bool}
    {l kept : List α} (h : tryFilterList p l = .ok kept) {a : α} :
    a ∈ kept ↔ a ∈ l ∧ p a = .ok true := by
  induction l generalizing kept with
  | nil => cases h; simp
  | cons b bs ih =>
      unfold tryFilterList at h
      split at h
      · cases h
      case h_2 keep hkeep =>
        split at h
        · cases h
        case h_2 rest hrest =>
          cases h
          cases keep <;> simp only [Bool.false_eq_true, if_true, if_false, List.mem_cons,
            ih hrest]
          · constructor
            · rintro ⟨ha, hp⟩
              exact ⟨.inr ha, hp⟩
            · rintro ⟨rfl | ha, hp⟩
              · rw [hkeep] at hp; cases hp
              · exact ⟨ha, hp⟩
          · constructor
            · rintro (rfl | ⟨ha, hp⟩)
              · exact ⟨.inl rfl, hkeep⟩
              · exact ⟨.inr ha, hp⟩
            · rintro ⟨rfl | ha, hp⟩
              · exact .inl rfl
              · exact .inr ⟨ha, hp⟩

theorem toList_tryFilter {ε : Type w} {p : α → Except ε Bool}
    {s kept : SortedSet α} (h : s.tryFilter p = .ok kept) :
    tryFilterList p s.toList = .ok kept.toList := by
  unfold tryFilter at h
  split at h
  · cases h
  case h_2 rest hrest => cases h; exact hrest

theorem mem_tryFilter {ε : Type w} {p : α → Except ε Bool}
    {s kept : SortedSet α} (h : s.tryFilter p = .ok kept) {a : α} :
    a ∈ kept ↔ a ∈ s ∧ p a = .ok true :=
  mem_tryFilterList (toList_tryFilter h)

/-- A fallible filter keeps no more than there is. -/
theorem size_tryFilter_le {ε : Type w} {p : α → Except ε Bool}
    {s kept : SortedSet α} (h : s.tryFilter p = .ok kept) :
    kept.size ≤ s.size :=
  (tryFilterList_sublist (toList_tryFilter h)).length_le

/-- A fallible filter that keeps as much as there is keeps everything. -/
theorem eq_of_tryFilter_of_size_le {ε : Type w} {p : α → Except ε Bool}
    {s kept : SortedSet α} (h : s.tryFilter p = .ok kept)
    (hsize : s.size ≤ kept.size) : kept = s :=
  toList_injective
    ((tryFilterList_sublist (toList_tryFilter h)).eq_of_length_le hsize)

/-! ## §2. Membership and equality. -/

section Oriented

variable [Std.OrientedOrd α]

/-- No element of an increasing list is repeated further on. -/
theorem nodup (s : SortedSet α) : s.toList.Nodup :=
  s.sorted.imp fun h hab => by
    subst hab
    have hself := (Std.ReflCmp.compare_self : compare _ _ = .eq).symm.trans h
    cases hself

end Oriented

section Lawful

variable [Std.LawfulEqOrd α]

@[simp] theorem contains_iff {s : SortedSet α} {a : α} :
    s.contains a = true ↔ a ∈ s := by
  simp only [contains, List.any_eq_true, beq_iff_eq, Std.LawfulEqCmp.compare_eq_iff_eq]
  exact ⟨fun ⟨b, hb, hab⟩ => hab ▸ hb, fun h => ⟨a, h, rfl⟩⟩

theorem contains_eq_false_iff {s : SortedSet α} {a : α} :
    s.contains a = false ↔ a ∉ s := by
  rw [← contains_iff, Bool.not_eq_true]

@[simp] theorem subset_iff {s t : SortedSet α} :
    s.subset t = true ↔ ∀ a ∈ s, a ∈ t := by
  simp [subset]

@[simp] theorem mem_difference {s t : SortedSet α} {a : α} :
    a ∈ s.difference t ↔ a ∈ s ∧ a ∉ t := by
  simp [difference, contains_eq_false_iff]

theorem mem_insertSorted {a x : α} {l : List α} :
    x ∈ insertSorted a l ↔ x = a ∨ x ∈ l := by
  refine ⟨eq_or_mem_of_mem_insertSorted, fun h => ?_⟩
  induction l with
  | nil => simpa [insertSorted] using h
  | cons b bs ih =>
      unfold insertSorted
      split
      · exact List.mem_cons.mpr h
      case h_2 hab =>
        rcases h with rfl | h
        · rw [Std.LawfulEqCmp.compare_eq_iff_eq] at hab
          exact hab ▸ .head _
        · exact h
      · rcases h with rfl | h
        · exact .tail _ (ih (.inl rfl))
        · rcases List.mem_cons.mp h with rfl | h
          · exact .head _
          · exact .tail _ (ih (.inr h))

variable [Std.TransOrd α]

@[simp] theorem mem_insert {s : SortedSet α} {a x : α} :
    x ∈ s.insert a ↔ x = a ∨ x ∈ s := mem_insertSorted

theorem mem_foldr_insert {l : List α} {s : SortedSet α} {x : α} :
    x ∈ l.foldr insert s ↔ x ∈ l ∨ x ∈ s := by
  induction l with
  | nil => simp
  | cons a as ih => simp [ih, or_assoc]

@[simp] theorem mem_ofList {l : List α} {x : α} :
    x ∈ ofList l ↔ x ∈ l := by
  simp [ofList, mem_foldr_insert]

@[simp] theorem mem_union {s t : SortedSet α} {x : α} :
    x ∈ s.union t ↔ x ∈ s ∨ x ∈ t := by
  simp [union, mem_foldr_insert, or_comm]

omit [Std.TransOrd α] [Std.LawfulEqOrd α] in
@[simp] theorem mem_map [Std.TransOrd β] [Std.LawfulEqOrd β] {f : α → β}
    {s : SortedSet α} {y : β} : y ∈ s.map f ↔ ∃ x ∈ s, f x = y := by
  simp [map]

omit [Std.LawfulEqOrd α] in
/-- Two increasing lists with the same members are equal. -/
theorem eq_of_pairwise_of_mem_iff {l m : List α}
    (hl : l.Pairwise (fun a b => compare a b = .lt))
    (hm : m.Pairwise (fun a b => compare a b = .lt))
    (h : ∀ a, a ∈ l ↔ a ∈ m) : l = m := by
  have irrefl : ∀ a : α, compare a a ≠ .lt := fun a ha => by
    have hself := (Std.ReflCmp.compare_self : compare a a = .eq).symm.trans ha
    cases hself
  induction l generalizing m with
  | nil =>
      cases m with
      | nil => rfl
      | cons b bs => exact absurd ((h b).mpr (.head _)) List.not_mem_nil
  | cons a as ih =>
      cases m with
      | nil => exact absurd ((h a).mp (.head _)) List.not_mem_nil
      | cons b bs =>
          obtain ⟨ha, has⟩ := List.pairwise_cons.mp hl
          obtain ⟨hb, hbs⟩ := List.pairwise_cons.mp hm
          have hab : a = b := by
            rcases List.mem_cons.mp ((h a).mp (.head _)) with hab | hab
            · exact hab
            rcases List.mem_cons.mp ((h b).mpr (.head _)) with hba | hba
            · exact hba.symm
            · exact absurd (Std.TransCmp.lt_trans (ha b hba) (hb a hab)) (irrefl a)
          subst hab
          congr 1
          refine ih has hbs fun x => ⟨fun hx => ?_, fun hx => ?_⟩
          · rcases List.mem_cons.mp ((h x).mp (.tail _ hx)) with rfl | hx'
            · exact absurd (ha x hx) (irrefl x)
            · exact hx'
          · rcases List.mem_cons.mp ((h x).mpr (.tail _ hx)) with rfl | hx'
            · exact absurd (hb x hx) (irrefl x)
            · exact hx'

omit [Std.LawfulEqOrd α] in
/-- **A set is determined by its members.** -/
theorem ext {s t : SortedSet α} (h : ∀ a, a ∈ s ↔ a ∈ t) : s = t :=
  toList_injective (eq_of_pairwise_of_mem_iff s.sorted t.sorted h)

end Lawful

/-! ## §3. The order of sets. -/

theorem compare_def (s t : SortedSet α) :
    compare s t = compare s.toList t.toList := rfl

instance [Std.TransOrd α] : Std.TransOrd (SortedSet α) where
  eq_swap {s t} := by
    rw [compare_def, compare_def]
    exact Std.OrientedOrd.eq_swap
  isLE_trans {s t u} := by
    rw [compare_def, compare_def, compare_def]
    exact Std.TransOrd.isLE_trans

instance [Std.LawfulEqOrd α] : Std.LawfulEqOrd (SortedSet α) where
  compare_self {s} := by
    rw [compare_def, Std.LawfulEqCmp.compare_eq_iff_eq]
  eq_of_compare {s t} h := by
    rw [compare_def, Std.LawfulEqCmp.compare_eq_iff_eq] at h
    exact toList_injective h

end SortedSet

end SystemZ
