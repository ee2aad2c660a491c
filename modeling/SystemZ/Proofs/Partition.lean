/-
  SystemZ.Proofs.Partition
  ────────────────────────
  **A STRATIFICATION GIVES EVERY CONDITIONAL OF ITS BASE EXACTLY ONE RANK.**

  Nothing is asked of the base but that its stratification does not fail: its
  literals may be reserved, and what a round keeps need not mean anything.
  A round that keeps less than its base starts the next one from a smaller
  base, so there is one round for each finite rank and one more, and at most
  as many finite ranks as conditionals.  What a round keeps is a function of
  its base, so the strata are the drops of an operator; they and the residue
  partition the base.

  Main results:
    `Rounds.length_le`               bases shrink, so the rounds end
    `exists_rounds_of_stratifyFrom`  one round for each rank, as reported
    `sorts_of_stratifyFrom`          any base that is stratified is sorted
    `stratify_partitions`
-/
import SystemZ.Proofs.Exceptionality

namespace SystemZ

/-! ## §1. The rounds of the construction. -/

namespace KnowledgeBase

/-- The rounds from a base on, listed by the bases that they start from.  What
a round keeps is the base of the next one; the round that keeps its whole base
is the last. -/
inductive Rounds : KnowledgeBase → List KnowledgeBase → Prop
  | last {kb : KnowledgeBase} (h : kb.exceptional = .ok kb) : Rounds kb [kb]
  | next {kb rest : KnowledgeBase} {bases : List KnowledgeBase}
      (h : kb.exceptional = .ok rest) (hne : rest ≠ kb)
      (hrest : Rounds rest bases) : Rounds kb (kb :: bases)

variable {kb : KnowledgeBase} {level : Nat} {t : Traced Stratification}

/-- **There is at most one round more than there are conditionals.** -/
theorem Rounds.length_le {bases : List KnowledgeBase}
    (h : kb.Rounds bases) : bases.length ≤ kb.size + 1 := by
  induction h with
  | last h => exact Nat.le_add_left 1 _
  | @next kb rest bases h hne hrest ih =>
      have hlt : rest.size < kb.size := size_exceptional_lt h hne
      rw [List.length_cons]
      omega

/-- A stratification has a round for each finite rank and one more, and
reports them all. -/
theorem exists_rounds_of_stratifyFrom (h : kb.stratifyFrom level = .ok t) :
    ∃ bases, kb.Rounds bases ∧ bases.length = t.value.finiteRanks + 1 ∧
      t.rounds = bases.length := by
  fun_induction stratifyFrom level kb generalizing t with
  | case1 level kb e he => cases h
  | case2 level kb hkeep =>
      cases h
      exact ⟨[kb], .last hkeep, rfl, rfl⟩
  | case3 level kb rest hrest hne e he ih => cases h
  | case4 level kb rest hrest hne above habove ih =>
      cases h
      obtain ⟨bases, hrounds, hlength, hreport⟩ := ih habove
      refine ⟨kb :: bases, .next hrest hne hrounds, ?_, ?_⟩
      · rw [List.length_cons, hlength]
        rfl
      · -- The trace has one line for this round in front of the others.
        show List.countP Event.isRound (_ :: above.trace) = _
        rw [List.countP_cons_of_pos rfl, List.length_cons, ← hreport]
        rfl

/-- The strata and the residue have the size of the base together. -/
theorem size_stratum_add_residue (h : kb.stratifyFrom level = .ok t) :
    (t.value.strata.map SortedSet.size).sum + t.value.residue.size =
      kb.size := by
  fun_induction stratifyFrom level kb generalizing t with
  | case1 level kb e he => cases h
  | case2 level kb hkeep =>
      cases h
      simp
  | case3 level kb rest hrest hne e he ih => cases h
  | case4 level kb rest hrest hne above habove ih =>
      cases h
      have hsum := ih habove
      have hdrop : (kb.difference rest).size + rest.size = kb.size :=
        SortedSet.size_difference_add (subset_of_exceptional_eq hrest)
      show (List.map SortedSet.size
          (kb.difference rest :: above.value.strata)).sum +
        above.value.residue.size = kb.size
      rw [List.map_cons, List.sum_cons]
      omega

/-! ## §2. The operator of a round. -/

/-- What a round keeps of a set of conditionals; nothing of a set on which it
fails. -/
def keptBy (base : Set Conditional) : Set Conditional :=
  {s | ∃ kb rest : KnowledgeBase, kb.toSet = base ∧
    kb.exceptional = .ok rest ∧ s ∈ rest}

theorem keptBy_subset (base : Set Conditional) : keptBy base ⊆ base := by
  intro s hs
  obtain ⟨kb, rest, rfl, hrest, hmem⟩ := hs
  exact subset_of_exceptional_eq hrest s hmem

theorem toSet_eq_keptBy {rest : KnowledgeBase}
    (h : kb.exceptional = .ok rest) : rest.toSet = keptBy kb.toSet := by
  ext s
  constructor
  · intro hs
    exact ⟨kb, rest, rfl, h, hs⟩
  · intro hs
    obtain ⟨kb', rest', hbase, hrest, hmem⟩ := hs
    -- Bases with the same members are the same base.
    have hsame : kb' = kb := SortedSet.toSet_injective hbase
    rw [hsame, h, Except.ok.injEq] at hrest
    exact hrest ▸ hmem

/-- **Whatever base is stratified is sorted**, by what its rounds keep. -/
theorem sorts_of_stratifyFrom (h : kb.stratifyFrom level = .ok t) :
    t.value.Sorts keptBy kb.toSet :=
  stratifyFrom_sorts keptBy_subset
    (fun _ _ _ hrest => toSet_eq_keptBy hrest) h

end KnowledgeBase

/-! ## §3. Partitions. -/

namespace Stratification

/-- A stratification partitions a base by rank. -/
structure Partitions (z : Stratification) (kb : KnowledgeBase) : Prop where
  /-- The finite ranks in use are the first ones, and infinity always is. -/
  ranks_in_use : z.toList.map Prod.fst =
    (List.range z.finiteRanks).map .finite ++ [.infinite]
  /-- A walk through the ranks in use meets what a look-up finds. -/
  mem_toList_iff : ∀ r part, (r, part) ∈ z.toList ↔ z.get? r = some part
  nonempty : ∀ i part, z.get? (.finite i) = some part → ∃ s, s ∈ part
  exists_unique : ∀ s ∈ kb, ∃! r, ∃ part, z.get? r = some part ∧ s ∈ part
  mem_of_mem_part : ∀ r part, z.get? r = some part → ∀ s ∈ part, s ∈ kb
  sum_sizes : (z.toList.map fun e => e.2.size).sum = kb.size
  rankOf?_eq_some_iff : ∀ s r,
    z.rankOf? s = some r ↔ ∃ part, z.get? r = some part ∧ s ∈ part
  rankOf?_eq_none_iff : ∀ s, z.rankOf? s = none ↔ s ∉ kb

variable {z : Stratification} {f : Set Conditional → Set Conditional}
  {base : Set Conditional} {s : Conditional} {r : Rank}

theorem map_fst_toList (z : Stratification) :
    z.toList.map Prod.fst =
      (List.range z.finiteRanks).map .finite ++ [.infinite] := by
  have hnumbers : z.strata.zipIdx.map Prod.snd = List.range z.finiteRanks := by
    rw [List.zipIdx_map_snd, List.range_eq_range', finiteRanks]
  rw [← hnumbers, toList, List.map_append, List.map_map, List.map_map]
  rfl

theorem mem_toList_iff_get? {part : KnowledgeBase} :
    (r, part) ∈ z.toList ↔ z.get? r = some part := by
  rw [toList, List.mem_append, List.mem_map, List.mem_singleton]
  cases r with
  | finite i =>
      show _ ↔ z.strata[i]? = some part
      simp [List.mem_zipIdx_iff_getElem?]
  | infinite =>
      show _ ↔ some z.residue = some part
      simp [eq_comm]

/-- The sizes of all parts are those of the strata and that of the residue. -/
theorem map_size_toList (z : Stratification) :
    (z.toList.map fun e => e.2.size).sum =
      (z.strata.map SortedSet.size).sum + z.residue.size := by
  have hparts : z.strata.zipIdx.map Prod.fst = z.strata :=
    List.zipIdx_map_fst 0 z.strata
  rw [toList, List.map_append, List.sum_append, List.map_map]
  show (z.strata.zipIdx.map (SortedSet.size ∘ Prod.fst)).sum +
    (z.residue.size + 0) = _
  rw [← List.map_map, hparts, Nat.add_zero]

/-- **A conditional has the rank whose part it is in.** -/
theorem Sorts.rankOf?_eq_some_iff (hz : z.Sorts f base)
    (hf : ∀ S, f S ⊆ S) :
    z.rankOf? s = some r ↔ ∃ part, z.get? r = some part ∧ s ∈ part := by
  cases r with
  | finite i =>
      rw [hz.rankOf?_eq_finite_iff hf, ← hz.mem_stratum i s]
      rfl
  | infinite =>
      rw [hz.rankOf?_eq_infinite_iff, ← hz.mem_residue s]
      simp [get?]

/-- Only conditionals of the base are in a part. -/
theorem Sorts.mem_of_mem_part (hz : z.Sorts f base) (hf : ∀ S, f S ⊆ S)
    {part : KnowledgeBase} (hpart : z.get? r = some part) (hs : s ∈ part) :
    s ∈ base := by
  have hrank : z.rankOf? s = some r :=
    (hz.rankOf?_eq_some_iff hf).mpr ⟨part, hpart, hs⟩
  cases r with
  | finite i =>
      have hround := ((hz.rankOf?_eq_finite_iff hf).mp hrank).1
      exact iterate_subset hf (Nat.zero_le i) hround
  | infinite => exact hz.rankOf?_eq_infinite_iff.mp hrank 0

theorem Sorts.rankOf?_eq_none_iff (hz : z.Sorts f base)
    (hf : ∀ S, f S ⊆ S) : z.rankOf? s = none ↔ s ∉ base := by
  constructor
  · intro hnone hs
    obtain ⟨r, hr⟩ := hz.exists_rankOf?_eq hf hs
    rw [hnone] at hr
    cases hr
  · intro hs
    cases hrank : z.rankOf? s with
    | none => rfl
    | some r =>
        obtain ⟨part, hpart, hmem⟩ := (hz.rankOf?_eq_some_iff hf).mp hrank
        exact absurd (hz.mem_of_mem_part hf hpart hmem) hs

/-- **Sorting is a partition**, whatever operator it is by. -/
theorem Sorts.partitions {kb : KnowledgeBase} (hz : z.Sorts f kb.toSet)
    (hf : ∀ S, f S ⊆ S)
    (hsize : (z.strata.map SortedSet.size).sum + z.residue.size = kb.size) :
    z.Partitions kb where
  ranks_in_use := z.map_fst_toList
  mem_toList_iff _ _ := mem_toList_iff_get?
  nonempty i part hpart := hz.nonempty part (List.mem_of_getElem? hpart)
  exists_unique s hs := by
    obtain ⟨r, hr⟩ := hz.exists_rankOf?_eq hf hs
    refine ⟨r, (hz.rankOf?_eq_some_iff hf).mp hr, ?_⟩
    intro r' hr'
    rw [← hz.rankOf?_eq_some_iff hf, hr, Option.some.injEq] at hr'
    exact hr'.symm
  mem_of_mem_part _ _ hpart _ hs := hz.mem_of_mem_part hf hpart hs
  sum_sizes := z.map_size_toList.trans hsize
  rankOf?_eq_some_iff _ _ := hz.rankOf?_eq_some_iff hf
  rankOf?_eq_none_iff _ := hz.rankOf?_eq_none_iff hf

end Stratification

/-- **A stratification ends and partitions its base.**  If it does not fail,
there is a result; the rounds are at most one more than the conditionals, and
each is reported; the finite ranks are at most as many as the conditionals;
and every conditional of the base is in the part of exactly one rank. -/
theorem stratify_partitions {kb : KnowledgeBase}
    (hok : ∀ e, kb.stratify ≠ .error e) :
    ∃ t bases, kb.stratify = .ok t ∧
      kb.Rounds bases ∧ bases.length ≤ kb.size + 1 ∧
      t.rounds = bases.length ∧
      t.value.finiteRanks ≤ kb.size ∧ t.value.Partitions kb := by
  cases ht : kb.stratify with
  | error e => exact absurd ht (hok e)
  | ok t =>
      obtain ⟨bases, hrounds, hlength, hreport⟩ :=
        KnowledgeBase.exists_rounds_of_stratifyFrom ht
      have hbound : bases.length ≤ kb.size + 1 := hrounds.length_le
      have hranks : t.value.finiteRanks ≤ kb.size := by omega
      have hpart : t.value.Partitions kb :=
        (KnowledgeBase.sorts_of_stratifyFrom ht).partitions
          KnowledgeBase.keptBy_subset
          (KnowledgeBase.size_stratum_add_residue ht)
      exact ⟨t, bases, rfl, hrounds, hbound, hreport, hranks, hpart⟩

/-- The penguins, and a conditional that has a reserved symbol as an ordinary
atom. -/
def strangeBirds : KnowledgeBase :=
  penguins.insert (.normally (.literal (.signed ⟨Atom.topSymbol⟩ true))
    (.literal (.positive ⟨"f"⟩)))

theorem stratify_partitions_strangeBirds :
    ¬ strangeBirds.ReservedFree ∧
      (∀ e, strangeBirds.stratify ≠ .error e) ∧
      ∃ t bases, strangeBirds.stratify = .ok t ∧
        strangeBirds.Rounds bases ∧ bases.length ≤ 5 ∧
        t.rounds = bases.length ∧
        t.value.finiteRanks ≤ 4 ∧ t.value.Partitions strangeBirds := by
  have hsize : strangeBirds.size = 4 := by decide
  have hok : ∀ e, strangeBirds.stratify ≠ .error e := by
    intro e he
    have hdone : strangeBirds.stratify.isOk = true := by decide +kernel
    rw [he] at hdone
    cases hdone
  have hresult := stratify_partitions hok
  rw [hsize] at hresult
  exact ⟨by decide, hok, hresult⟩

end SystemZ
