/-
  SystemZ.Proofs.Rounds
  ─────────────────────
  **A STRATIFICATION SORTS A BASE BY THE ROUND THAT DROPS EACH CONDITIONAL.**

  A round is an operator on sets of conditionals that only drops some.  A
  stratification sorts a base by an operator when stratum `i` holds what round
  `i` drops, and the residue what no round drops.  The construction sorts by
  every operator that its single rounds compute, whatever that operator means.

  Main results:
    `Sorts.cons`                 one more round below a sorted rest
    `stratifyFrom_sorts`         the construction sorts, by induction
    `Sorts.rankOf?_eq_finite_iff`, `Sorts.le_rankOf?_iff`  ranks are rounds
    `Sorts.rank_le_of_survives`  who survives longer has the greater rank
    `Sorts.residue_fixed`        the rounds end, at the residue
-/
import Mathlib.Data.Set.Lattice
import Mathlib.Order.Iterate
import SystemZ.Proofs.FiniteSets
import SystemZ.Proofs.Ranks
import SystemZ.Stratification

namespace SystemZ

/-! ## §1. Rounds that only drop conditionals. -/

section Rounds

variable {f : Set Conditional → Set Conditional} {base : Set Conditional}

theorem iterate_subset (hf : ∀ S, f S ⊆ S) {i j : Nat} (h : i ≤ j) :
    f^[j] base ⊆ f^[i] base :=
  Function.antitone_iterate_of_le_id hf h base

/-- What is gone after some round was dropped by one. -/
theorem exists_round_of_not_mem {s : Conditional} (hs : s ∈ base) {j : Nat}
    (hj : s ∉ f^[j] base) : ∃ n, s ∈ f^[n] base \ f^[n + 1] base := by
  induction j with
  | zero => exact absurd hs hj
  | succ j ih =>
      by_cases hkeep : s ∈ f^[j] base
      · exact ⟨j, hkeep, hj⟩
      · exact ih hkeep

/-- A stratification sorts a base by the round of `f` that drops each
conditional. -/
structure Stratification.Sorts (z : Stratification)
    (f : Set Conditional → Set Conditional) (base : Set Conditional) :
    Prop where
  mem_stratum : ∀ i s, (∃ part, z.strata[i]? = some part ∧ s ∈ part) ↔
    s ∈ f^[i] base \ f^[i + 1] base
  nonempty : ∀ part ∈ z.strata, ∃ s, s ∈ part
  mem_residue : ∀ s, s ∈ z.residue ↔ ∀ i, s ∈ f^[i] base

namespace Stratification

/-- A base that its next round keeps has no stratum. -/
theorem sorts_of_fixed {kb : KnowledgeBase} (hfix : f kb.toSet = kb.toSet) :
    Sorts ⟨[], kb⟩ f kb.toSet := by
  have hstay : ∀ i, f^[i] kb.toSet = kb.toSet := Function.iterate_fixed hfix
  constructor
  · intro i s
    simp [hstay]
  · intro part hpart
    cases hpart
  · intro s
    simp [hstay]

/-- One more round below a sorted rest. -/
theorem Sorts.cons (hf : ∀ S, f S ⊆ S) {kb rest : KnowledgeBase}
    {above : Stratification} (habove : above.Sorts f rest.toSet)
    (hround : rest.toSet = f kb.toSet) (hne : rest ≠ kb) :
    Sorts ⟨kb.difference rest :: above.strata, above.residue⟩ f kb.toSet := by
  have hsub : ∀ s ∈ rest, s ∈ kb := fun s hs => hf kb.toSet (hround ▸ hs)
  -- The rounds above start from what this one leaves.
  have hshift : ∀ i, f^[i] rest.toSet = f^[i + 1] kb.toSet := by
    intro i
    rw [hround]
    rfl
  constructor
  · intro i s
    cases i with
    | zero =>
        show (∃ part, some (kb.difference rest) = some part ∧ s ∈ part) ↔
          s ∈ kb.toSet \ f kb.toSet
        rw [← hround]
        simp
    | succ i =>
        rw [← hshift, ← hshift]
        exact habove.mem_stratum i s
  · intro part hpart
    rcases List.mem_cons.mp hpart with rfl | hpart
    · by_contra hempty
      push Not at hempty
      -- Nothing dropped: the round would have kept the whole base.
      refine hne (SortedSet.ext fun s => ⟨hsub s, fun hs => ?_⟩)
      by_contra hdropped
      exact hempty s (SortedSet.mem_difference.mpr ⟨hs, hdropped⟩)
    · exact habove.nonempty part hpart
  · intro s
    show s ∈ above.residue ↔ _
    rw [habove.mem_residue s]
    constructor
    · intro hall i
      have hi : s ∈ f^[i + 1] kb.toSet := hshift i ▸ hall i
      exact iterate_subset hf (Nat.le_succ i) hi
    · intro hall i
      rw [hshift]
      exact hall (i + 1)

end Stratification

end Rounds

/-! ## §2. The construction, round by round. -/

namespace KnowledgeBase

theorem subset_of_exceptional_eq {kb rest : KnowledgeBase}
    (h : kb.exceptional = .ok rest) : ∀ s ∈ rest, s ∈ kb :=
  fun _ hs => ((SortedSet.mem_tryFilter h).mp hs).1

/-- The construction succeeds if every round on a part of the base does. -/
theorem exists_stratifyFrom_eq_ok {kb : KnowledgeBase} (level : Nat)
    (hok : ∀ sub : KnowledgeBase, (∀ s ∈ sub, s ∈ kb) →
      ∃ rest, sub.exceptional = .ok rest) :
    ∃ t, kb.stratifyFrom level = .ok t := by
  fun_induction stratifyFrom level kb with
  | case1 level kb e he =>
      obtain ⟨rest, hrest⟩ := hok kb fun _ hs => hs
      rw [he] at hrest
      cases hrest
  | case2 level kb => exact ⟨_, rfl⟩
  | case3 level kb rest hrest hfix e he ih =>
      -- Parts of what is left are parts of the base.
      have hsub := subset_of_exceptional_eq hrest
      obtain ⟨t, ht⟩ := ih fun sub h => hok sub fun s hs => hsub s (h s hs)
      rw [he] at ht
      cases ht
  | case4 level kb rest hrest hfix above habove ih => exact ⟨_, rfl⟩

/-- **Each round of the construction fills one stratum.**  If single rounds
compute `f`, the construction sorts the base by the rounds of `f`. -/
theorem stratifyFrom_sorts {f : Set Conditional → Set Conditional}
    (hf : ∀ S, f S ⊆ S) {kb : KnowledgeBase} {level : Nat}
    {t : Traced Stratification}
    (hround : ∀ sub rest : KnowledgeBase, (∀ s ∈ sub, s ∈ kb) →
      sub.exceptional = .ok rest → rest.toSet = f sub.toSet)
    (h : kb.stratifyFrom level = .ok t) : t.value.Sorts f kb.toSet := by
  fun_induction stratifyFrom level kb generalizing t with
  | case1 level kb e he => cases h
  | case2 level kb hkeep =>
      cases h
      have hfix : kb.toSet = f kb.toSet :=
        hround kb kb (fun _ hs => hs) hkeep
      exact Stratification.sorts_of_fixed hfix.symm
  | case3 level kb rest hrest hne e he ih => cases h
  | case4 level kb rest hrest hne above habove ih =>
      cases h
      have hnext : rest.toSet = f kb.toSet :=
        hround kb rest (fun _ hs => hs) hrest
      have hsub := subset_of_exceptional_eq hrest
      have hsorts : above.value.Sorts f rest.toSet :=
        ih (fun sub r hs => hround sub r fun s h => hsub s (hs s h)) habove
      exact hsorts.cons hf hnext hne

end KnowledgeBase

/-! ## §3. Reading strata and ranks. -/

namespace Stratification

variable {f : Set Conditional → Set Conditional} {base : Set Conditional}
  {z : Stratification} {s : Conditional} {i : Nat}

theorem Sorts.toSet_stratum (hz : z.Sorts f base) {part : KnowledgeBase}
    (hpart : z.strata[i]? = some part) :
    part.toSet = f^[i] base \ f^[i + 1] base := by
  ext s
  rw [← hz.mem_stratum i s, hpart]
  simp

/-- A conditional has rank `i` exactly when round `i` drops it. -/
theorem Sorts.rankOf?_eq_finite_iff (hz : z.Sorts f base)
    (hf : ∀ S, f S ⊆ S) :
    z.rankOf? s = some (.finite i) ↔ s ∈ f^[i] base \ f^[i + 1] base := by
  constructor
  · intro h
    unfold rankOf? at h
    split at h
    case h_1 j hj =>
      cases h
      obtain ⟨hlt, hs, _⟩ := List.findIdx?_eq_some_iff_getElem.mp hj
      exact (hz.mem_stratum _ s).mp
        ⟨_, List.getElem?_eq_getElem hlt, SortedSet.contains_iff.mp hs⟩
    case h_2 => split at h <;> cases h
  · intro h
    obtain ⟨part, hpart, hs⟩ := (hz.mem_stratum i s).mpr h
    obtain ⟨hlt, rfl⟩ := List.getElem?_eq_some_iff.mp hpart
    have hidx : (z.strata.findIdx? fun kb => kb.contains s) = some i := by
      refine List.findIdx?_eq_some_iff_getElem.mpr
        ⟨hlt, SortedSet.contains_iff.mpr hs, ?_⟩
      intro j hji hj
      -- An earlier stratum holds what round `j` dropped before round `i`.
      have hdropped := (hz.mem_stratum j s).mp
        ⟨_, List.getElem?_eq_getElem _, SortedSet.contains_iff.mp hj⟩
      exact hdropped.2 (iterate_subset hf hji h.1)
    rw [rankOf?, hidx]

/-- A conditional has infinite rank exactly when no round drops it. -/
theorem Sorts.rankOf?_eq_infinite_iff (hz : z.Sorts f base) :
    z.rankOf? s = some .infinite ↔ ∀ i, s ∈ f^[i] base := by
  rw [← hz.mem_residue]
  constructor
  · intro h
    unfold rankOf? at h
    split at h
    case h_1 => cases h
    case h_2 =>
      split at h
      case isTrue hs => exact SortedSet.contains_iff.mp hs
      case isFalse => cases h
  · intro hs
    have hidx : (z.strata.findIdx? fun kb => kb.contains s) = none := by
      rw [List.findIdx?_eq_none_iff]
      intro part hpart
      -- A stratum that holds `s` would have it dropped in its round.
      rw [SortedSet.contains_eq_false_iff]
      intro hsp
      obtain ⟨j, hj⟩ := List.mem_iff_getElem?.mp hpart
      have hdropped := (hz.mem_stratum j s).mp ⟨part, hj, hsp⟩
      exact hdropped.2 ((hz.mem_residue s).mp hs (j + 1))
    rw [rankOf?, hidx]
    exact if_pos (SortedSet.contains_iff.mpr hs)

/-- **The rank of a conditional of the base is at least `i` exactly when it
survives `i` rounds**; in particular it has a rank. -/
theorem Sorts.le_rankOf?_iff (hz : z.Sorts f base) (hf : ∀ S, f S ⊆ S)
    (hs : s ∈ base) :
    (∃ r, z.rankOf? s = some r ∧ .finite i ≤ r) ↔ s ∈ f^[i] base := by
  constructor
  · intro hrank
    obtain ⟨r, hr, hle⟩ := hrank
    cases r with
    | finite n =>
        have hn := ((hz.rankOf?_eq_finite_iff hf).mp hr).1
        exact iterate_subset hf (Rank.finite_le_finite.mp hle) hn
    | infinite => exact hz.rankOf?_eq_infinite_iff.mp hr i
  · intro hi
    by_cases hall : ∀ j, s ∈ f^[j] base
    · exact ⟨.infinite, hz.rankOf?_eq_infinite_iff.mpr hall, Rank.le_infinite _⟩
    · push Not at hall
      obtain ⟨j, hj⟩ := hall
      obtain ⟨n, hn⟩ := exists_round_of_not_mem hs hj
      refine ⟨.finite n, (hz.rankOf?_eq_finite_iff hf).mpr hn, ?_⟩
      rw [Rank.finite_le_finite]
      -- Dropped before round `i`, it would not have survived that long.
      by_contra hlt
      have hle : n + 1 ≤ i := by omega
      exact hn.2 (iterate_subset hf hle hi)

theorem Sorts.exists_rankOf?_eq (hz : z.Sorts f base) (hf : ∀ S, f S ⊆ S)
    (hs : s ∈ base) : ∃ r, z.rankOf? s = some r := by
  obtain ⟨r, hr, _⟩ := (hz.le_rankOf?_iff hf hs (i := 0)).mpr hs
  exact ⟨r, hr⟩

/-- **Who survives longer has the greater rank**, also where the two are sorted
by different rounds from different bases. -/
theorem Sorts.rank_le_of_survives {g : Set Conditional → Set Conditional}
    {base' : Set Conditional} {z' : Stratification} {s' : Conditional}
    (hz : z.Sorts f base) (hz' : z'.Sorts g base') (hf : ∀ S, f S ⊆ S)
    (hg : ∀ S, g S ⊆ S) (hs : s ∈ base) (hs' : s' ∈ base')
    (hsurvives : ∀ i, s ∈ f^[i] base → s' ∈ g^[i] base') {r r' : Rank}
    (hr : z.rankOf? s = some r) (hr' : z'.rankOf? s' = some r') : r ≤ r' := by
  apply Rank.le_of_forall_finite_le
  intro i hi
  have hround : s ∈ f^[i] base := (hz.le_rankOf?_iff hf hs).mp ⟨r, hr, hi⟩
  obtain ⟨q, hq, hle⟩ :=
    (hz'.le_rankOf?_iff hg hs').mpr (hsurvives i hround)
  rw [hr', Option.some.injEq] at hq
  exact hq ▸ hle

/-- The residue is what is left after as many rounds as there are strata, and
the next round keeps all of it. -/
theorem Sorts.residue_fixed (hz : z.Sorts f base) (hf : ∀ S, f S ⊆ S) :
    z.residue.toSet = f^[z.strata.length] base ∧
      f z.residue.toSet = z.residue.toSet := by
  -- A round after the last stratum drops nothing, or there would be another.
  have hlast : f (f^[z.strata.length] base) = f^[z.strata.length] base := by
    refine Set.Subset.antisymm (hf _) ?_
    intro s hs
    by_contra hdrop
    rw [← Function.iterate_succ_apply' f] at hdrop
    obtain ⟨part, hpart, _⟩ := (hz.mem_stratum _ s).mpr ⟨hs, hdrop⟩
    rw [List.getElem?_eq_none (Nat.le_refl _)] at hpart
    cases hpart
  have hres : z.residue.toSet = f^[z.strata.length] base := by
    ext s
    rw [SortedSet.mem_toSet, hz.mem_residue]
    refine ⟨fun hall => hall _, fun hs i => ?_⟩
    rcases Nat.le_total i z.strata.length with hi | hi
    · exact iterate_subset hf hi hs
    · obtain ⟨k, rfl⟩ := Nat.exists_eq_add_of_le hi
      rw [Nat.add_comm, Function.iterate_add_apply,
        Function.iterate_fixed hlast]
      exact hs
  exact ⟨hres, by rw [hres, hlast]⟩

end Stratification

end SystemZ
