/-
  SystemZ.Proofs.Relegation
  ─────────────────────────
  **THE RANKED MODEL, ROUND BY ROUND OVER A TABLE OF RANKS.**

  Relegation starts from the table that gives every valuation rank 0.  Each
  round looks at one level, from 0 upwards: it finds the valuations of that
  rank that violate a conditional in the table as it stands, and moves them one
  rank up.  A round that finds the same valuations as the round before it (at
  first, all of them) moves them to infinity instead, and is the last.

  The ladder computes what relegation does.  Between two rounds the valuations
  that the last one moved are those without a settled rank, and the rules that
  no valuation below the level meets are the pending ones; so a round finds
  exactly those who do not settle, and it finds the same as before exactly
  where nobody settles.

  Main results:
    `violatesAt_eq`           a round finds who does not obey what is pending
    `OnLevel.step`            the next round is on the next level
    `completes_of_step`       what completes the next table completes this one
    `exists_relegation`       from any level, round by round
    `relegation_rankOver`     the whole construction, with its rounds
-/
import SystemZ.Proofs.UsedRanks

namespace SystemZ

/-! ## §1. Relegation. -/

namespace RankedModel

/-- The model in which every valuation has rank 0. -/
def flat (α : Alphabet) : RankedModel where
  alphabet := α
  ranks := Array.replicate (1 <<< α.size) (.finite 0)
  size_ranks := Array.size_replicate

/-- The model with those who pass `p` moved to the rank `r`. -/
def move (m : RankedModel) (p : Valuation → Bool) (r : Rank) :
    RankedModel where
  alphabet := m.alphabet
  ranks := (m.entries.map fun e => if p e.1 then r else e.2).toArray
  size_ranks := by
    rw [List.size_toArray, List.length_map, length_entries]

/-- Whether a valuation of rank `level` violates a conditional of a base. -/
def violatesAt (m : RankedModel) (kb : KnowledgeBase) (level : Nat)
    (v : Valuation) : Bool :=
  m.rank? v == some (.finite level) && kb.toList.any fun s => m.violates s v

/-- The valuations that do, in order. -/
def violatorsAt (m : RankedModel) (kb : KnowledgeBase) (level : Nat) :
    List Valuation :=
  (m.alphabet.valuations true).rest.filter (m.violatesAt kb level)

end RankedModel

/-- Relegation for a base: from a table at a level, after a round that has
found the valuations `before`, so many more rounds end with a final table. -/
inductive Relegation (kb : KnowledgeBase) :
    Nat → RankedModel → List Valuation → Nat → RankedModel → Prop
  /-- The same valuations as before: they go to infinity. -/
  | stop {level : Nat} {m : RankedModel} {before : List Valuation}
      (h : m.violatorsAt kb level = before) :
      Relegation kb level m before 1
        (m.move (m.violatesAt kb level) .infinite)
  /-- Others than before: they go one rank up. -/
  | next {level rounds : Nat} {m final : RankedModel}
      {before : List Valuation} (h : m.violatorsAt kb level ≠ before)
      (hnext : Relegation kb (level + 1)
        (m.move (m.violatesAt kb level) (.finite (level + 1)))
        (m.violatorsAt kb level) rounds final) :
      Relegation kb level m before (rounds + 1) final

/-- The rounds and the final table are determined. -/
theorem Relegation.unique {kb : KnowledgeBase} {level rounds rounds' : Nat}
    {m final final' : RankedModel} {before : List Valuation}
    (h : Relegation kb level m before rounds final)
    (h' : Relegation kb level m before rounds' final') :
    rounds = rounds' ∧ final = final' := by
  induction h generalizing rounds' final' with
  | stop hsame =>
      cases h' with
      | stop _ => exact ⟨rfl, rfl⟩
      | next hother _ => exact absurd hsame hother
  | next hother _ ih =>
      cases h' with
      | stop hsame => exact absurd hsame hother
      | next _ hnext =>
          obtain ⟨hrounds, hfinal⟩ := ih hnext
          exact ⟨congrArg (· + 1) hrounds, hfinal⟩

/-! ## §2. What the table says. -/

namespace RankedModel

variable {m : RankedModel} {v : Valuation} {r : Rank} {φ : Formula}

theorem rank?_flat {α : Alphabet} (h : v.alphabet = α) :
    (flat α).rank? v = some (.finite 0) := by
  have hlt : v.trueBits.toNat < 1 <<< α.size := by
    rw [Nat.one_shiftLeft, ← h]
    exact v.toNat_trueBits_lt
  rw [rank?_of_alphabet (m := flat α) h, Array.getElem?_toList]
  show (Array.replicate (1 <<< α.size) (Rank.finite 0))[_]? = _
  rw [Array.getElem?_replicate, if_pos hlt]

/-- Every listed valuation has a rank. -/
theorem exists_rank?_eq (hv : v ∈ (m.alphabet.valuations true).rest) :
    ∃ r, m.rank? v = some r := by
  have hα : v.alphabet = m.alphabet := Valuations.alphabet_of_mem_rest hv
  have hlt : v.trueBits.toNat < m.ranks.toList.length := by
    rw [Array.length_toList, m.size_ranks, Nat.one_shiftLeft, ← hα]
    exact v.toNat_trueBits_lt
  exact ⟨_, by rw [rank?_of_alphabet hα, List.getElem?_eq_getElem hlt]⟩

@[simp] theorem alphabet_move {p : Valuation → Bool} :
    (m.move p r).alphabet = m.alphabet := rfl

/-- A move changes the ranks of those who pass, and no others. -/
theorem rank?_move {p : Valuation → Bool}
    (hv : v ∈ (m.alphabet.valuations true).rest) :
    (m.move p r).rank? v = if p v then some r else m.rank? v := by
  have hα : v.alphabet = m.alphabet := Valuations.alphabet_of_mem_rest hv
  obtain ⟨q, hq⟩ := exists_rank?_eq hv
  obtain ⟨k, hk⟩ := List.mem_iff_getElem?.mp hv
  have hbits : v.trueBits.toNat = k := Valuations.toNat_trueBits_of_getElem? hk
  -- The entry at the number of `v` is `v` with its rank.
  have hentry : m.entries[k]? = some (v, q) := by
    rw [rank?_of_alphabet hα, hbits] at hq
    rw [entries, List.getElem?_zip_eq_some]
    exact ⟨hk, hq⟩
  rw [rank?_of_alphabet (m := m.move p r) hα, hbits, hq]
  show (m.entries.map fun e => if p e.1 then r else e.2)[k]? = _
  rw [List.getElem?_map, hentry, Option.map_some]
  exact apply_ite some (p v = true) r q

/-- The rank of a valuation is below `level`. -/
def Below (m : RankedModel) (level : Nat) (v : Valuation) : Prop :=
  ∃ q, m.rank? v = some q ∧ q < .finite level

/-- No listed valuation of a rank below `level` makes a formula true. -/
def Unmet (m : RankedModel) (level : Nat) (φ : Formula) : Prop :=
  ∀ u ∈ (m.alphabet.valuations true).rest, m.Below level u →
    u.satisfies φ = false

theorem isMinimal_iff_unmet {level : Nat}
    (h : m.rank? v = some (.finite level)) :
    m.isMinimal φ v = true ↔ m.Unmet level φ := by
  rw [isMinimal_iff h]
  simp only [mem_ranksAt_iff, mem_entries]
  constructor
  · intro hall u hu hbelow
    obtain ⟨q, hq, hlt⟩ := hbelow
    rw [← Bool.not_eq_true]
    intro hsat
    exact not_le.mpr hlt (hall q ⟨u, ⟨hu, hq⟩, hsat⟩)
  · intro hunmet q hq
    obtain ⟨u, ⟨hu, hq⟩, hsat⟩ := hq
    rw [← not_lt]
    intro hlt
    rw [hunmet u hu ⟨q, hq, hlt⟩] at hsat
    cases hsat

end RankedModel

/-! ## §3. A round is a level of the ladder. -/

open RankedModel Ladder

/-- Between two rounds: a table at a level, the rules that are pending there
and the valuations that have no settled rank. -/
structure OnLevel (kb : KnowledgeBase) (level : Nat) (m : RankedModel)
    (pending : List Rule) (unranked : List Valuation) : Prop where
  unranked_eq : unranked = (m.alphabet.valuations true).rest.filter fun v =>
    m.rank? v == some (.finite level)
  rank_le : ∀ v ∈ (m.alphabet.valuations true).rest, ∀ q,
    m.rank? v = some q → q ≤ .finite level
  mem_pending : ∀ r, r ∈ pending ↔
    ∃ s ∈ kb, ⟨s.antecedent, s.materialize⟩ = r ∧ m.Unmet level s.antecedent

variable {kb : KnowledgeBase} {level : Nat} {m : RankedModel}
  {pending : List Rule} {unranked settled violating : List Valuation}
  {u v : Valuation}

namespace OnLevel

theorem mem_unranked_iff (hm : OnLevel kb level m pending unranked) :
    v ∈ unranked ↔ v ∈ (m.alphabet.valuations true).rest ∧
      m.rank? v = some (.finite level) := by
  rw [hm.unranked_eq, List.mem_filter, beq_iff_eq]

/-- **A round finds, at its level, who does not obey what is pending.** -/
theorem violatesAt_eq (hm : OnLevel kb level m pending unranked) :
    m.violatesAt kb level v =
      (m.rank? v == some (.finite level) && !obeys pending v) := by
  by_cases hrank : m.rank? v = some (.finite level)
  case neg => rw [violatesAt, beq_false_of_ne hrank, Bool.false_and,
    Bool.false_and]
  rw [violatesAt, hrank, beq_self_eq_true, Bool.true_and, Bool.true_and,
    Bool.eq_iff_iff, Bool.not_eq_true', obeys_eq_false_iff, List.any_eq_true]
  constructor
  · intro h
    obtain ⟨s, hs, hviolates⟩ := h
    rw [violates, Bool.and_eq_true, Bool.not_eq_true',
      isMinimal_iff_unmet hrank] at hviolates
    exact ⟨_, (hm.mem_pending _).mpr ⟨s, hs, rfl, hviolates.1⟩, hviolates.2⟩
  · intro h
    obtain ⟨r, hr, hfalse⟩ := h
    obtain ⟨s, hs, rfl, hunmet⟩ := (hm.mem_pending r).mp hr
    refine ⟨s, hs, ?_⟩
    rw [violates, Bool.and_eq_true, Bool.not_eq_true',
      isMinimal_iff_unmet hrank]
    exact ⟨hunmet, hfalse⟩

/-- So it finds exactly those who go on. -/
theorem violatorsAt_eq (hm : OnLevel kb level m pending unranked)
    (h : settle pending unranked = (settled, violating)) :
    m.violatorsAt kb level = violating := by
  rw [settle_eq, Prod.mk.injEq] at h
  rw [← h.2, hm.unranked_eq, List.filter_filter, violatorsAt]
  apply List.filter_congr
  intro v _
  rw [hm.violatesAt_eq, Bool.and_comm]

theorem violatesAt_iff (hm : OnLevel kb level m pending unranked)
    (h : settle pending unranked = (settled, violating))
    (hv : v ∈ (m.alphabet.valuations true).rest) :
    m.violatesAt kb level v = true ↔ v ∈ violating := by
  rw [← hm.violatorsAt_eq h, violatorsAt, List.mem_filter]
  simp [hv]

/-- Who goes on gets the new rank. -/
theorem rank?_move_of_mem (hm : OnLevel kb level m pending unranked)
    (h : settle pending unranked = (settled, violating)) {r : Rank}
    (hv : v ∈ (m.alphabet.valuations true).rest) (hmem : v ∈ violating) :
    (m.move (m.violatesAt kb level) r).rank? v = some r := by
  rw [rank?_move hv, if_pos ((hm.violatesAt_iff h hv).mpr hmem)]

/-- Nobody else's rank changes. -/
theorem rank?_move_of_not_mem (hm : OnLevel kb level m pending unranked)
    (h : settle pending unranked = (settled, violating)) {r : Rank}
    (hv : v ∈ (m.alphabet.valuations true).rest) (hnot : v ∉ violating) :
    (m.move (m.violatesAt kb level) r).rank? v = m.rank? v := by
  rw [rank?_move hv, if_neg (mt (hm.violatesAt_iff h hv).mp hnot)]

/-- **One level up, those below are those who were and those who settled.** -/
theorem below_move_iff (hm : OnLevel kb level m pending unranked)
    (h : settle pending unranked = (settled, violating))
    (hv : v ∈ (m.alphabet.valuations true).rest) :
    (m.move (m.violatesAt kb level) (.finite (level + 1))).Below (level + 1) v ↔
      m.Below level v ∨ v ∈ settled := by
  obtain ⟨q, hq⟩ := exists_rank?_eq hv
  have hle : q ≤ .finite level := hm.rank_le v hv q hq
  have hfound : m.violatesAt kb level v =
      (decide (q = .finite level) && !obeys pending v) := by
    rw [hm.violatesAt_eq, hq]
    rfl
  constructor
  · intro hbelow
    obtain ⟨q', hq', hlt⟩ := hbelow
    by_cases hlevel : q = .finite level
    · -- On the level only those who obey stay below the next one.
      cases hobeys : obeys pending v with
      | true => exact .inr ((mem_settled_iff h).mpr
          ⟨hm.mem_unranked_iff.mpr ⟨hv, hlevel ▸ hq⟩, hobeys⟩)
      | false =>
          have hfound : m.violatesAt kb level v = true := by
            rw [hfound, decide_eq_true hlevel, hobeys]
            rfl
          rw [rank?_move hv, if_pos hfound, Option.some.injEq] at hq'
          exact absurd (hq' ▸ hlt) (lt_irrefl _)
    · exact .inl ⟨q, hq, lt_of_le_of_ne hle hlevel⟩
  · intro hstays
    have hnot : m.violatesAt kb level v = false := by
      rcases hstays with ⟨q', hq', hlt⟩ | hsettled
      · rw [hq, Option.some.injEq] at hq'
        rw [hfound, decide_eq_false (hq' ▸ ne_of_lt hlt), Bool.false_and]
      · rw [hfound, ((mem_settled_iff h).mp hsettled).2, Bool.not_true,
          Bool.and_false]
    refine ⟨q, ?_, Rank.lt_succ_iff.mpr hle⟩
    rw [rank?_move hv, hnot, if_neg Bool.false_ne_true, hq]

/-- One level up, a formula is unmet if it was and nobody who settled meets
it. -/
theorem unmet_move_iff (hm : OnLevel kb level m pending unranked)
    (h : settle pending unranked = (settled, violating)) {φ : Formula} :
    (m.move (m.violatesAt kb level) (.finite (level + 1))).Unmet (level + 1) φ ↔
      m.Unmet level φ ∧ ¬ ∃ w ∈ settled, w.satisfies φ = true := by
  have hlisted : ∀ w ∈ settled, w ∈ (m.alphabet.valuations true).rest := by
    intro w hw
    exact (hm.mem_unranked_iff.mp ((mem_settled_iff h).mp hw).1).1
  constructor
  · intro hunmet
    constructor
    · intro w hw hbelow
      exact hunmet w hw ((hm.below_move_iff h hw).mpr (.inl hbelow))
    · intro hmet
      obtain ⟨w, hw, hsat⟩ := hmet
      have hbelow := (hm.below_move_iff h (hlisted w hw)).mpr (.inr hw)
      rw [hunmet w (hlisted w hw) hbelow] at hsat
      cases hsat
  · intro hboth w hw hbelow
    obtain ⟨hunmet, hnone⟩ := hboth
    rcases (hm.below_move_iff h hw).mp hbelow with hbelow | hsettled
    · exact hunmet w hw hbelow
    · rw [← Bool.not_eq_true]
      intro hsat
      exact hnone ⟨w, hsettled, hsat⟩

/-- **The next round is on the next level.** -/
theorem step (hm : OnLevel kb level m pending unranked)
    (h : settle pending unranked = (u :: settled, violating)) :
    OnLevel kb (level + 1)
      (m.move (m.violatesAt kb level) (.finite (level + 1)))
      (stillPending pending (u :: settled)) violating := by
  constructor
  · -- Who is on the next level is who was found.
    rw [← hm.violatorsAt_eq h]
    apply List.filter_congr
    intro v hv
    obtain ⟨q, hq⟩ := exists_rank?_eq hv
    rw [rank?_move hv]
    cases m.violatesAt kb level v with
    | true => simp
    | false =>
        have hlow : q ≠ .finite (level + 1) := by
          intro heq
          have hle := hm.rank_le v hv q hq
          rw [heq, Rank.finite_le_finite] at hle
          omega
        rw [hq]
        simp [hlow]
  · intro v hv q hq
    rw [alphabet_move] at hv
    rw [rank?_move hv] at hq
    split at hq
    · cases hq
      exact le_refl _
    · have hle := hm.rank_le v hv q hq
      exact le_trans hle (Rank.finite_le_finite.mpr (Nat.le_succ level))
  · intro r
    rw [mem_stillPending, hm.mem_pending]
    simp only [hm.unmet_move_iff h]
    constructor
    · intro hpending
      obtain ⟨⟨s, hs, rfl, hunmet⟩, hnone⟩ := hpending
      exact ⟨s, hs, rfl, hunmet, hnone⟩
    · intro hpending
      obtain ⟨s, hs, rfl, hunmet, hnone⟩ := hpending
      exact ⟨⟨s, hs, rfl, hunmet⟩, hnone⟩

end OnLevel

/-! ## §4. The run. -/

/-- A final table completes one at a level: those without a settled rank get
the ranks of the ladder, counted from the level on, and the others keep
theirs. -/
structure Completes (level : Nat) (m : RankedModel) (pending : List Rule)
    (unranked : List Valuation) (final : RankedModel) : Prop where
  alphabet_eq : final.alphabet = m.alphabet
  rank?_unranked : ∀ v ∈ (m.alphabet.valuations true).rest, v ∈ unranked →
    final.rank? v =
      some (Rank.succ^[level] (rankOn (climb pending unranked) v))
  rank?_settled : ∀ v ∈ (m.alphabet.valuations true).rest, v ∉ unranked →
    final.rank? v = m.rank? v

/-- Where nobody settles, infinity is what the ladder gives. -/
theorem OnLevel.completes_of_stop (hm : OnLevel kb level m pending unranked)
    (h : settle pending unranked = ([], violating)) :
    Completes level m pending unranked
      (m.move (m.violatesAt kb level) .infinite) where
  alphabet_eq := rfl
  rank?_unranked v hv hmem := by
    have hfound : v ∈ violating := violating_eq_of_stop h ▸ hmem
    rw [hm.rank?_move_of_mem h hv hfound, rankOn_climb_of_stop h,
      obeys_eq_false_of_stop h hmem, if_neg Bool.false_ne_true,
      Rank.iterate_succ_infinite]
  rank?_settled v hv hnot := by
    have hpassed : v ∉ violating := violating_eq_of_stop h ▸ hnot
    exact hm.rank?_move_of_not_mem h hv hpassed

/-- **What completes the next table completes this one.** -/
theorem OnLevel.completes_of_step {final : RankedModel}
    (hm : OnLevel kb level m pending unranked)
    (h : settle pending unranked = (u :: settled, violating))
    (hnext : Completes (level + 1)
      (m.move (m.violatesAt kb level) (.finite (level + 1)))
      (stillPending pending (u :: settled)) violating final) :
    Completes level m pending unranked final where
  alphabet_eq := hnext.alphabet_eq
  rank?_unranked v hv hmem := by
    rw [rankOn_climb_of_step h]
    cases hobeys : obeys pending v with
    | true =>
        -- It has settled: the level is its rank from now on.
        have hnot : v ∉ violating := by
          intro hviolating
          rw [((mem_violating_iff h).mp hviolating).2] at hobeys
          cases hobeys
        rw [hnext.rank?_settled v hv hnot, hm.rank?_move_of_not_mem h hv hnot,
          (hm.mem_unranked_iff.mp hmem).2, if_pos rfl, Rank.iterate_succ_zero]
    | false =>
        have hviolating : v ∈ violating :=
          (mem_violating_iff h).mpr ⟨hmem, hobeys⟩
        rw [hnext.rank?_unranked v hv hviolating, if_neg Bool.false_ne_true,
          Function.iterate_succ_apply]
  rank?_settled v hv hnot := by
    have hpassed : v ∉ violating := by
      intro hviolating
      exact hnot ((mem_violating_iff h).mp hviolating).1
    rw [hnext.rank?_settled v hv hpassed, hm.rank?_move_of_not_mem h hv hpassed]

/-- Where nobody settles, a round finds the same as the one before it. -/
theorem OnLevel.violatorsAt_eq_of_stop
    (hm : OnLevel kb level m pending unranked)
    (h : settle pending unranked = ([], violating)) :
    m.violatorsAt kb level = unranked :=
  (hm.violatorsAt_eq h).trans (violating_eq_of_stop h)

/-- Where somebody settles it finds fewer. -/
theorem OnLevel.violatorsAt_ne_of_step
    (hm : OnLevel kb level m pending unranked)
    (h : settle pending unranked = (u :: settled, violating)) :
    m.violatorsAt kb level ≠ unranked := by
  intro hsame
  have hlt := length_violating_lt h
  rw [← hm.violatorsAt_eq h, hsame] at hlt
  exact lt_irrefl _ hlt

/-- **Relegation takes as many rounds as the ladder has levels**, and ends
with the ranks of the ladder. -/
theorem exists_relegation (hm : OnLevel kb level m pending unranked) :
    ∃ final, Relegation kb level m unranked
        (climb pending unranked).length final ∧
      Completes level m pending unranked final := by
  induction pending, unranked using climb.induct generalizing level m with
  | case1 pending unranked violating h =>
      -- Everybody without a settled rank violates a rule: a last round.
      refine ⟨_, ?_, hm.completes_of_stop h⟩
      rw [climb_of_stop h]
      exact .stop (hm.violatorsAt_eq_of_stop h)
  | case2 pending unranked u settled violating h ih =>
      obtain ⟨final, hrun, hnext⟩ := ih (hm.step h)
      refine ⟨final, ?_, hm.completes_of_step h hnext⟩
      rw [climb_of_step h]
      refine .next (hm.violatorsAt_ne_of_step h) ?_
      rw [hm.violatorsAt_eq h]
      exact hrun

/-- The flat table is at level 0, with all rules and all valuations. -/
theorem onLevel_flat (kb : KnowledgeBase) (α : Alphabet) :
    OnLevel kb 0 (flat α) (rules kb) (α.valuations true).rest := by
  have hflat : ∀ v ∈ (α.valuations true).rest,
      (flat α).rank? v = some (.finite 0) :=
    fun v hv => rank?_flat (Valuations.alphabet_of_mem_rest hv)
  constructor
  · symm
    apply List.filter_eq_self.mpr
    intro v hv
    rw [hflat v hv, beq_self_eq_true]
  · intro v hv q hq
    rw [hflat v hv, Option.some.injEq] at hq
    exact le_of_eq hq.symm
  · -- Nothing is below level 0, so every rule is pending.
    have hunmet : ∀ φ : Formula, (flat α).Unmet 0 φ := by
      rintro φ u _ ⟨q, _, hlt⟩
      exact absurd hlt (Rank.not_lt_zero q)
    intro r
    rw [rules, List.mem_map]
    constructor
    · rintro ⟨s, hs, rfl⟩
      exact ⟨s, hs, rfl, hunmet s.antecedent⟩
    · rintro ⟨s, hs, rfl, _⟩
      exact ⟨s, hs, rfl⟩

/-- **The ranked model of a base is the final table of a relegation** that
starts from rank 0 everywhere, with all valuations as those found before; it
takes as many rounds as the ladder has levels. -/
theorem relegation_rankOver (kb : KnowledgeBase) (α : Alphabet) :
    Relegation kb 0 (flat α) (α.valuations true).rest
      (climb (rules kb) (α.valuations true).rest).length
      (kb.rankOver α).value := by
  obtain ⟨final, hrun, hdone⟩ := exists_relegation (onLevel_flat kb α)
  have hfinal : final = (kb.rankOver α).value := by
    have hα : final.alphabet = α := hdone.alphabet_eq
    have hsame : final.alphabet = (kb.rankOver α).value.alphabet := hα
    apply ext_of_rank? hsame
    intro v hv
    rw [hα] at hv
    have hv' : v.alphabet = α := Valuations.alphabet_of_mem_rest hv
    rw [hdone.rank?_unranked v hv hv, KnowledgeBase.rank?_rankOver hv']
    rfl
  rw [← hfinal]
  exact hrun

end SystemZ
