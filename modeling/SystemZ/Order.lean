/-
  SystemZ.Order
  ─────────────
  **LAWFUL ORDERS FROM FOUR SMALL FACTS.**

  A comparison that is `.eq` exactly on equal values, that turns round when
  its arguments are exchanged, and whose `.lt` is transitive is a total
  order.  The orders of literals, formulas and conditionals are shown lawful
  through this door, because the four facts suit an induction on the data.

  Main results:
    `transOrd_of_lt_trans`  the order instance from the four facts
    `then_lt_trans`         a lexicographic step of such an induction
-/

namespace SystemZ

/-- A comparison with a transitive `.lt` is a transitive order, once its
`.eq` is equality. -/
theorem transOrd_of_lt_trans {α : Type _} [Ord α] [Std.OrientedOrd α]
    [Std.LawfulEqOrd α]
    (trans : ∀ a b c : α,
      compare a b = .lt → compare b c = .lt → compare a c = .lt) :
    Std.TransOrd α where
  isLE_trans {a b c} hab hbc := by
    cases h₁ : compare a b with
    | gt => rw [h₁] at hab; cases hab
    | eq =>
        rw [Std.LawfulEqCmp.compare_eq_iff_eq] at h₁
        exact h₁ ▸ hbc
    | lt =>
        cases h₂ : compare b c with
        | gt => rw [h₂] at hbc; cases hbc
        | eq =>
            rw [Std.LawfulEqCmp.compare_eq_iff_eq] at h₂
            exact h₂ ▸ hab
        | lt => rw [trans a b c h₁ h₂]; rfl

/-- **One lexicographic step**: if `.lt` is transitive at the first
components and `.eq` there is equality, then a comparison that goes on to the
second components is transitive where those are. -/
theorem then_lt_trans {α : Type _} {cmp : α → α → Ordering} {a b c : α}
    {o₁ o₂ o₃ : Ordering}
    (eq_iff : ∀ x y, cmp x y = .eq ↔ x = y)
    (first : cmp a b = .lt → cmp b c = .lt → cmp a c = .lt)
    (second : o₁ = .lt → o₂ = .lt → o₃ = .lt)
    (hab : (cmp a b).then o₁ = .lt) (hbc : (cmp b c).then o₂ = .lt) :
    (cmp a c).then o₃ = .lt := by
  rw [Ordering.then_eq_lt] at hab hbc ⊢
  rcases hab with hab | ⟨hab, h₁⟩
  · rcases hbc with hbc | ⟨hbc, h₂⟩
    · exact .inl (first hab hbc)
    · rw [eq_iff] at hbc
      exact .inl (hbc ▸ hab)
  · rw [eq_iff] at hab
    rcases hbc with hbc | ⟨hbc, h₂⟩
    · exact .inl (hab ▸ hbc)
    · exact .inr ⟨hab ▸ hbc, second h₁ h₂⟩

end SystemZ
