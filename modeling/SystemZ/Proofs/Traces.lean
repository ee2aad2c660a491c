/-
  SystemZ.Proofs.Traces
  ─────────────────────
  **WHAT A TRACE REPORTS CAN BE READ OFF THE RESULT.**

  The lines of a trace are written in the middle of a construction, about what
  is left at that moment.  What is left is known in the end: on level `i` of a
  stratification stand the conditionals of rank `i` and above, and from level
  `i` of a ranked model the valuations of rank above `i` go on.  So a report
  that is drawn up from the result alone has the same lines, in the same
  number.

  The rounds of a relegation find the numbers that the ladder reports.  A search
  for justifications reports the size of what it finds, just once.

  Nothing is asked of the input but that the procedure does not fail.

  Main results:
    `trace_stratifyFrom`         the rounds report the sizes of their bases
    `violating_of_getElem?`      who goes on from a level of a climb
    `trace_stratify`, `trace_rankOver`   traces are reports on results
    `relegationFinds_rankOver`   the rounds of a relegation find as many
    `exists_found_of_justifications`    the size of what is found
    `traces_are_faithful`
-/
import SystemZ.Proofs.Levels
import SystemZ.Proofs.Partition
import SystemZ.Proofs.Search

namespace SystemZ

/-! ## §1. Stratifications. -/

namespace Stratification

/-- The conditionals of a base whose rank passes a test. -/
def ranked (z : Stratification) (kb : KnowledgeBase) (p : Rank → Bool) :
    KnowledgeBase :=
  kb.filter fun s => (z.rankOf? s).any p

/-- A report on the stratification of a base: for each finite rank in use, and
once more after the last, how many conditionals have at least that rank and
how many have a greater one; and then a summary. -/
def report (z : Stratification) (kb : KnowledgeBase) : List Event :=
  (List.range (z.finiteRanks + 1)).map (fun i =>
      .stratum i (z.ranked kb (.finite i ≤ ·)).size
        (z.ranked kb (.finite i < ·)).size) ++
    [.stratified z.finiteRanks z.residue.size]

variable {z : Stratification} {kb : KnowledgeBase}
  {f : Set Conditional → Set Conditional} {i : Nat}

/-- The greater ranks are those from the next one on. -/
theorem ranked_lt (z : Stratification) (kb : KnowledgeBase) (i : Nat) :
    z.ranked kb (.finite i < ·) = z.ranked kb (.finite (i + 1) ≤ ·) := by
  simp only [Rank.finite_succ_le_iff]

/-- Rank `i` and above is for those who survive `i` rounds. -/
theorem Sorts.toSet_ranked (hz : z.Sorts f kb.toSet) (hf : ∀ S, f S ⊆ S)
    (i : Nat) : (z.ranked kb (.finite i ≤ ·)).toSet = f^[i] kb.toSet := by
  ext s
  rw [SortedSet.mem_toSet, ranked, SortedSet.mem_filter, Option.any_eq_true]
  simp only [decide_eq_true_eq]
  constructor
  · intro h
    obtain ⟨hs, hrank⟩ := h
    exact (hz.le_rankOf?_iff hf hs).mp hrank
  · intro h
    have hs : s ∈ kb := iterate_subset hf (Nat.zero_le i) h
    exact ⟨hs, (hz.le_rankOf?_iff hf hs).mpr h⟩

/-- **Only on the last line of a report nothing is sorted out.** -/
theorem Sorts.size_ranked_eq_iff (hz : z.Sorts f kb.toSet)
    (hf : ∀ S, f S ⊆ S) (hi : i ≤ z.finiteRanks) :
    (z.ranked kb (.finite i ≤ ·)).size = (z.ranked kb (.finite i < ·)).size ↔
      i = z.finiteRanks := by
  have hge := hz.toSet_ranked hf i
  have hgt := hz.toSet_ranked hf (i + 1)
  rw [ranked_lt]
  constructor
  · intro hsize
    by_contra hne
    have hlt : i < z.strata.length := Nat.lt_of_le_of_ne hi hne
    -- Some conditional has rank `i`, and so is sorted out.
    obtain ⟨s, hs⟩ := hz.nonempty _ (List.getElem_mem hlt)
    obtain ⟨hkeep, hdrop⟩ :=
      (hz.mem_stratum i s).mp ⟨_, List.getElem?_eq_getElem hlt, hs⟩
    have hsub : ∀ s ∈ z.ranked kb (.finite (i + 1) ≤ ·),
        s ∈ z.ranked kb (.finite i ≤ ·) := by
      intro s hs
      rw [← SortedSet.mem_toSet, hgt] at hs
      rw [← SortedSet.mem_toSet, hge]
      exact iterate_subset hf (Nat.le_succ i) hs
    have hsame := SortedSet.eq_of_subset_of_size_le hsub (Nat.le_of_eq hsize)
    rw [← hgt, hsame, hge] at hdrop
    exact hdrop hkeep
  · intro hlast
    subst hlast
    obtain ⟨hresidue, hfixed⟩ := hz.residue_fixed hf
    refine congrArg SortedSet.size (SortedSet.ext fun s => ?_)
    rw [← SortedSet.mem_toSet, ← SortedSet.mem_toSet, hge, hgt,
      Function.iterate_succ_apply', finiteRanks, ← hresidue, hfixed]

end Stratification

namespace KnowledgeBase

variable {kb : KnowledgeBase} {level : Nat} {t : Traced Stratification}
  {bases : Nat → KnowledgeBase}

/-- **The rounds report the sizes of their bases**, which are what the rounds
keep one after another. -/
theorem trace_stratifyFrom (h : kb.stratifyFrom level = .ok t)
    (hbases : ∀ i, (bases i).toSet = keptBy^[i] kb.toSet) :
    t.trace = (List.range (t.value.finiteRanks + 1)).map (fun i =>
        .stratum (level + i) (bases i).size (bases (i + 1)).size) ++
      [.stratified (level + t.value.finiteRanks) t.value.residue.size] := by
  fun_induction stratifyFrom level kb generalizing t bases with
  | case1 level kb e he => cases h
  | case2 level kb hkeep =>
      cases h
      have hstay : ∀ i, bases i = kb := by
        intro i
        apply SortedSet.toSet_injective
        rw [hbases i, Function.iterate_fixed (toSet_eq_keptBy hkeep).symm]
      simp only [hstay]
      rfl
  | case3 level kb rest hrest hne e he ih => cases h
  | case4 level kb rest hrest hne above habove ih =>
      cases h
      have hfirst : bases 0 = kb := SortedSet.toSet_injective (hbases 0)
      have hsecond : bases 1 = rest := by
        apply SortedSet.toSet_injective
        rw [hbases 1, toSet_eq_keptBy hrest, Function.iterate_one]
      have hlater : ∀ i, (bases (i + 1)).toSet = keptBy^[i] rest.toSet := by
        intro i
        rw [hbases, Function.iterate_succ_apply, toSet_eq_keptBy hrest]
      -- One line is in front, and the others report one level higher.
      have hlevel : ∀ i, level + 1 + i = level + (i + 1) := by omega
      show _ :: above.trace = (List.range (above.value.finiteRanks + 1 +
        1)).map _ ++ [.stratified (level + (above.value.finiteRanks + 1)) _]
      rw [List.range_succ_eq_map, List.map_cons, List.map_map,
        ih habove hlater, hlevel, hfirst, hsecond]
      simp only [hlevel]
      rfl

/-- **The trace of a stratification is the report on its result.** -/
theorem trace_stratify (h : kb.stratify = .ok t) :
    t.trace = t.value.report kb := by
  have hranked := (sorts_of_stratifyFrom h).toSet_ranked keptBy_subset
  have htrace := trace_stratifyFrom h hranked
  simp only [Nat.zero_add] at htrace
  rw [htrace, Stratification.report]
  simp only [Stratification.ranked_lt]

end KnowledgeBase

/-! ## §2. Ranked models. -/

namespace RankedModel

/-- The number of valuations whose rank passes a test. -/
def countRanks (m : RankedModel) (p : Rank → Bool) : Nat :=
  m.entries.countP fun e => p e.2

/-- The number of levels that it takes to build a model: one more than its
finite ranks, which are all those up to the greatest. -/
def levels (m : RankedModel) : Nat := m.maxFinite?.elim 1 (· + 2)

/-- A report on a model: for each level, how many valuations have a greater
rank; and then a summary. -/
def report (m : RankedModel) : List Event :=
  (List.range m.levels).map (fun i =>
      .worldLevel i (m.countRanks (.finite i < ·))) ++
    [.worldsRanked m.size m.maxFinite? (m.countRanks (· == .infinite))]

theorem length_valuationsOfRank (m : RankedModel) (r : Rank) :
    (m.valuationsOfRank r).length = m.countRanks (· == r) := by
  rw [valuationsOfRank, List.length_map, countRanks,
    List.countP_eq_length_filter]

end RankedModel

namespace Ladder

variable {pending : List Rule} {unranked : List Valuation} {i : Nat}
  {l : Level}

/-- **The valuations that go on from a level are those of greater rank.** -/
theorem violating_of_getElem? (h : (climb pending unranked)[i]? = some l) :
    l.violating = unranked.countP fun v =>
      Rank.finite i < rankOn (climb pending unranked) v := by
  induction pending, unranked using climb.induct generalizing i with
  | case1 pending unranked violating hstop =>
      rw [climb_of_stop hstop, List.getElem?_singleton] at h
      split at h
      case isFalse => cases h
      case isTrue =>
        cases h
        -- Nobody who is listed has a finite rank.
        have hall : ∀ v ∈ unranked, decide (Rank.finite i <
            rankOn (climb pending unranked) v) = true := by
          intro v hv
          rw [rankOn_climb_of_stop hstop, obeys_eq_false_of_stop hstop hv]
          simp
        rw [List.countP_eq_length.mpr hall, violating_eq_of_stop hstop]
  | case2 pending unranked u settled violating hstep ih =>
      have hviolating :
          violating = unranked.filter fun v => !obeys pending v := by
        have hsplit := hstep
        rw [settle_eq, Prod.mk.injEq] at hsplit
        exact hsplit.2.symm
      have hcount : ∀ p : Valuation → Bool, violating.countP p =
          unranked.countP fun v => p v && !obeys pending v := by
        intro p
        rw [hviolating, List.countP_filter]
      rw [climb_of_step hstep] at h
      cases i with
      | zero =>
          cases h
          show violating.length = _
          rw [hviolating, ← List.countP_eq_length_filter]
          apply List.countP_congr
          intro v _
          rw [rankOn_climb_of_step hstep]
          cases obeys pending v <;> simp
      | succ i =>
          rw [ih h, hcount]
          apply List.countP_congr
          intro v _
          rw [rankOn_climb_of_step hstep]
          cases obeys pending v <;> simp

end Ladder

/-- The numbers of valuations that the rounds of a relegation find, from a
table at a level on, after a round that has found the valuations `before`. -/
inductive RelegationFinds (kb : KnowledgeBase) :
    Nat → RankedModel → List Valuation → List Nat → Prop
  | stop {level : Nat} {m : RankedModel} {before : List Valuation}
      (h : m.violatorsAt kb level = before) :
      RelegationFinds kb level m before [before.length]
  | next {level : Nat} {m : RankedModel} {before : List Valuation}
      {counts : List Nat} (h : m.violatorsAt kb level ≠ before)
      (hnext : RelegationFinds kb (level + 1)
        (m.move (m.violatesAt kb level) (.finite (level + 1)))
        (m.violatorsAt kb level) counts) :
      RelegationFinds kb level m before
        ((m.violatorsAt kb level).length :: counts)

/-- They are those that the ladder has on its levels. -/
theorem OnLevel.relegationFinds {kb : KnowledgeBase} {level : Nat}
    {m : RankedModel} {pending : List Ladder.Rule} {unranked : List Valuation}
    (hm : OnLevel kb level m pending unranked) :
    RelegationFinds kb level m unranked
      ((Ladder.climb pending unranked).map Ladder.Level.violating) := by
  induction pending, unranked using Ladder.climb.induct
    generalizing level m with
  | case1 pending unranked violating h =>
      rw [Ladder.climb_of_stop h, Ladder.violating_eq_of_stop h]
      exact .stop (hm.violatorsAt_eq_of_stop h)
  | case2 pending unranked u settled violating h ih =>
      have hnext := ih (hm.step h)
      rw [Ladder.climb_of_step h, List.map_cons]
      rw [← hm.violatorsAt_eq h] at hnext ⊢
      exact .next (hm.violatorsAt_ne_of_step h) hnext

namespace KnowledgeBase

variable {kb : KnowledgeBase} {α : Alphabet}

theorem countRanks_rankOver (p : Rank → Bool) :
    (kb.rankOver α).value.countRanks p =
      (α.valuations true).rest.countP fun v => p (kb.worldRank α v) := by
  rw [RankedModel.countRanks, entries_rankOver, List.countP_map]
  rfl

/-- There is one level more than finite ranks are given. -/
theorem levels_rankOver :
    (kb.rankOver α).value.levels = kb.levelCount α := by
  have hpos : 0 < kb.levelCount α :=
    List.length_pos_iff.mpr (Ladder.climb_ne_nil _ _)
  unfold RankedModel.levels
  cases hmax : (kb.rankOver α).value.maxFinite? with
  | none =>
      have hzero := RankedModel.maxFinite?_eq_none_iff.mp hmax 0
      rw [finite_mem_usedRanks_iff] at hzero
      show 1 = kb.levelCount α
      omega
  | some k =>
      obtain ⟨hk, hgreatest⟩ := RankedModel.maxFinite?_eq_some_iff.mp hmax
      have hnext : .finite (k + 1) ∉ (kb.rankOver α).value.usedRanks := by
        intro hmem
        have hle : k + 1 ≤ k := hgreatest hmem
        omega
      have hk : .finite k ∈ (kb.rankOver α).value.usedRanks := hk
      rw [finite_mem_usedRanks_iff] at hk
      rw [finite_mem_usedRanks_iff] at hnext
      show k + 2 = kb.levelCount α
      omega

/-- **Level by level**, the numbers of those who go on. -/
theorem zipIdx_climb (kb : KnowledgeBase) (α : Alphabet) :
    (Ladder.climb (Ladder.rules kb) (α.valuations true).rest).zipIdx.map
        (fun x => (x.2, x.1.violating)) =
      (List.range (kb.levelCount α)).map fun i =>
        (i, (kb.rankOver α).value.countRanks (.finite i < ·)) := by
  apply List.ext_getElem?
  intro i
  rw [List.getElem?_map, List.getElem?_map, List.getElem?_zipIdx, levelCount]
  cases hl : (Ladder.climb (Ladder.rules kb) (α.valuations true).rest)[i]? with
  | none =>
      have hlength := List.getElem?_eq_none_iff.mp hl
      rw [List.getElem?_eq_none (by rwa [List.length_range])]
      rfl
  | some l =>
      have hlt := (List.getElem?_eq_some_iff.mp hl).1
      rw [List.getElem?_range hlt, Option.map_some, Option.map_some,
        Option.map_some, Nat.zero_add, countRanks_rankOver,
        Ladder.violating_of_getElem? hl]
      rfl

/-- **The trace of a ranked model is the report on it.** -/
theorem trace_rankOver (kb : KnowledgeBase) (α : Alphabet) :
    (kb.rankOver α).trace = (kb.rankOver α).value.report := by
  have hlines := congrArg
    (List.map fun x : Nat × Nat => Event.worldLevel x.1 x.2)
    (zipIdx_climb kb α)
  rw [List.map_map, List.map_map] at hlines
  rw [RankedModel.report, levels_rankOver,
    ← RankedModel.length_valuationsOfRank]
  exact congrArg (· ++ _) hlines

/-- **The rounds of the relegation find those valuations.** -/
theorem relegationFinds_rankOver (kb : KnowledgeBase) (α : Alphabet) :
    RelegationFinds kb 0 (.flat α) (α.valuations true).rest
      ((List.range (kb.rankOver α).value.levels).map fun i =>
        (kb.rankOver α).value.countRanks (.finite i < ·)) := by
  have hcounts := congrArg (List.map Prod.snd) (zipIdx_climb kb α)
  rw [List.map_map, List.map_map] at hcounts
  have hfinds := (onLevel_flat kb α).relegationFinds
  rw [← List.zipIdx_map_fst 0 (Ladder.climb _ _), List.map_map] at hfinds
  rw [levels_rankOver]
  exact hcounts ▸ hfinds

end KnowledgeBase

/-! ## §3. Justifications. -/

namespace Justification

variable {strict defeasible : KnowledgeBase} {φ : Formula}
  {t : Traced (SortedSet KnowledgeBase)}

/-- **A search reports a size if it finds something, and then one that all
justifications have.** -/
theorem exists_found_of_justifications
    (h : justifications strict defeasible φ = .ok t) :
    ∃ found, t.trace =
        found ++ [.justificationsFound t.value.size φ defeasible.size] ∧
      (t.value = ∅ → found = []) ∧
      (t.value ≠ ∅ → ∃ k, found = [.justificationFound k] ∧
        ∀ J ∈ t.value, J.size = k) := by
  rw [justifications_eq_map_tryBySize,
    Progress.tryBySize_start List.pairwise_lt_range] at h
  cases hfirst : firstHits (refutes strict.materialized.toList φ.negate)
      defeasible.toList (List.range (defeasible.size + 1)) with
  | error e =>
      rw [hfirst] at h
      cases h
  | ok first =>
      rw [hfirst] at h
      cases h
      cases first with
      | none => exact ⟨[], rfl, fun _ => rfl, fun hne => absurd rfl hne⟩
      | some x =>
          obtain ⟨k, hits⟩ := x
          obtain ⟨hne, hhits, _⟩ :=
            firstHits_eq_ok_some List.pairwise_lt_range hfirst
          refine ⟨[.justificationFound k], rfl, ?_, fun _ => ⟨k, rfl, ?_⟩⟩
          · intro hempty
            exact absurd hempty (Progress.found_ofHits_ne_empty k hne)
          · intro J hJ
            exact Progress.size_of_mem_found
              (fun m hm => ((hhits m).mp hm).1) hJ

end Justification

/-! ## §4. Traces. -/

/-- **Traces are faithful to results.**  Whenever the procedures do not fail:
the trace of a stratification is the report on it, in which the two counts of
a line agree on the last one only; the trace of a ranked model is the report
on it, and its counts are what the rounds of the relegation find that starts
with all valuations at rank 0; and a search for justifications reports how
many there are and, before that, once, the size that they all have, if there
are any. -/
theorem traces_are_faithful :
    (∀ (kb : KnowledgeBase) (t : Traced Stratification),
      kb.stratify = .ok t →
        t.trace = t.value.report kb ∧
          ∀ i ≤ t.value.finiteRanks,
            (t.value.ranked kb (.finite i ≤ ·)).size =
                (t.value.ranked kb (.finite i < ·)).size ↔
              i = t.value.finiteRanks) ∧
    (∀ (kb : KnowledgeBase) (alphabet : Option Alphabet)
      (t : Traced RankedModel), kb.minimalModel alphabet = .ok t →
        t.trace = t.value.report ∧
          RelegationFinds kb 0 (.flat t.value.alphabet)
            (t.value.alphabet.valuations true).rest
            ((List.range t.value.levels).map fun i =>
              t.value.countRanks (.finite i < ·))) ∧
    ∀ (strict defeasible : KnowledgeBase) (φ : Formula)
      (t : Traced (SortedSet KnowledgeBase)),
      justifications strict defeasible φ = .ok t →
        ∃ found, t.trace =
            found ++ [.justificationsFound t.value.size φ defeasible.size] ∧
          (t.value = ∅ → found = []) ∧
          (t.value ≠ ∅ → ∃ k, found = [.justificationFound k] ∧
            ∀ J ∈ t.value, J.size = k) := by
  refine ⟨?_, ?_, ?_⟩
  · intro kb t ht
    refine ⟨KnowledgeBase.trace_stratify ht, fun i hi => ?_⟩
    exact (KnowledgeBase.sorts_of_stratifyFrom ht).size_ranked_eq_iff
      KnowledgeBase.keptBy_subset hi
  · intro kb alphabet t ht
    obtain ⟨α, rfl⟩ := KnowledgeBase.exists_rankOver_eq ht
    exact ⟨kb.trace_rankOver α, kb.relegationFinds_rankOver α⟩
  · intro strict defeasible φ t ht
    exact Justification.exists_found_of_justifications ht

/-- A procedure whose trace is known has succeeded. -/
theorem exists_eq_ok_of_trace_eq {α : Type}
    {run : Except AlphabetError (Traced α)} {events : List Event}
    (h : run.toOption.map Traced.trace = some events) :
    ∃ t, run = .ok t ∧ t.trace = events := by
  cases run with
  | error e => cases h
  | ok t => exact ⟨t, rfl, Option.some.inj h⟩

/-- Penguins are refuted by two conditionals together. -/
theorem traces_of_penguins_are_faithful :
    (∃ t, penguins.stratify = .ok t ∧ t.value.report penguins =
      [.stratum 0 3 2, .stratum 1 2 1, .stratum 2 1 1, .stratified 2 1]) ∧
    (∃ t, penguins.minimalModel none = .ok t ∧ t.value.report =
      [.worldLevel 0 5, .worldLevel 1 3, .worldLevel 2 2, .worldLevel 3 2,
        .worldsRanked 8 (some 2) 2]) ∧
    ∃ t, justifications penguins.separate.1 penguins.separate.2
        (.leaf (.positive ⟨"p"⟩)) = .ok t ∧
      t.value ≠ ∅ ∧ ∀ J ∈ t.value, J.size = 2 := by
  obtain ⟨hstratify, hmodel, hsearch⟩ := traces_are_faithful
  refine ⟨?_, ?_, ?_⟩
  · obtain ⟨t, ht, htrace⟩ := exists_eq_ok_of_trace_eq
      (by decide +kernel : penguins.stratify.toOption.map Traced.trace =
        some [.stratum 0 3 2, .stratum 1 2 1, .stratum 2 1 1,
          .stratified 2 1])
    exact ⟨t, ht, (hstratify _ t ht).1.symm.trans htrace⟩
  · obtain ⟨t, ht, htrace⟩ := exists_eq_ok_of_trace_eq
      (by decide +kernel :
        (penguins.minimalModel none).toOption.map Traced.trace =
          some [.worldLevel 0 5, .worldLevel 1 3, .worldLevel 2 2,
            .worldLevel 3 2, .worldsRanked 8 (some 2) 2])
    exact ⟨t, ht, (hmodel _ _ t ht).1.symm.trans htrace⟩
  · obtain ⟨t, ht, htrace⟩ := exists_eq_ok_of_trace_eq
      (by decide +kernel :
        (justifications penguins.separate.1 penguins.separate.2
          (.leaf (.positive ⟨"p"⟩))).toOption.map Traced.trace =
          some [.justificationFound 2,
            .justificationsFound 1 (.leaf (.positive ⟨"p"⟩)) 2])
    obtain ⟨found, hfound, hempty, hsome⟩ := hsearch _ _ _ t ht
    have hne : t.value ≠ ∅ := by
      intro h
      rw [hempty h, htrace] at hfound
      cases hfound
    obtain ⟨k, rfl, hsizes⟩ := hsome hne
    rw [htrace, List.singleton_append, List.cons.injEq,
      Event.justificationFound.injEq] at hfound
    rw [← hfound.1] at hsizes
    exact ⟨t, ht, hne, hsizes⟩

end SystemZ
