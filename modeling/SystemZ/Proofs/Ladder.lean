/-
  SystemZ.Proofs.Ladder
  ─────────────────────
  **THE RANK OF A VALUATION, BY ONE EQUATION.**

  A valuation settles by level `i` exactly when every rule whose strict reading
  it falsifies has its antecedent met by some valuation that settles before
  level `i`.  The equation says everything about the ladder: finite ranks are
  determined by it from 0 upwards, and a valuation that satisfies it for no
  `i` has infinite rank.

  It is proved along the climb, for any rules and any list of valuations: a
  level adds to what is met below it just what settles there, and rules that
  are met leave the pending ones.

  Main results:
    `rankOn_climb_le_iff`   the equation, along a climb
    `rank?_rankOver`        the model looks ranks up in the climb's levels
    `worldRank_le_iff`      the equation, for a knowledge base
-/
import SystemZ.Proofs.Assignments
import SystemZ.Proofs.Ranks
import SystemZ.RankedModel

namespace SystemZ

/-! ## §1. Along a climb. -/

namespace Ladder

variable {pending : List Rule} {unranked settled violating : List Valuation}
  {u v : Valuation} {i : Nat}

theorem obeys_iff :
    obeys pending v = true ↔ ∀ r ∈ pending, v.satisfies r.strict = true :=
  List.all_eq_true

theorem obeys_eq_false_iff :
    obeys pending v = false ↔
      ∃ r ∈ pending, v.satisfies r.strict = false := by
  simp [obeys]

/-- A valuation that obeys the rules falsifies none, whatever is asked of those
it falsifies. -/
theorem forall_falsified_of_obeys (h : obeys pending v = true)
    {p : Rule → Prop} :
    ∀ r ∈ pending, v.satisfies r.strict = false → p r := by
  intro r hr hfalse
  rw [obeys_iff.mp h r hr] at hfalse
  cases hfalse

/-- Obedience looks at the values of atoms alone. -/
theorem obeys_congr (h : u.value = v.value) :
    obeys pending u = obeys pending v := by
  unfold obeys Valuation.satisfies
  rw [h]

theorem rankOn_congr {levels : List Level} (h : u.value = v.value) :
    rankOn levels u = rankOn levels v := by
  have hobeys : ∀ l : Level, obeys l.pending u = obeys l.pending v :=
    fun l => obeys_congr h
  unfold rankOn
  simp only [hobeys]

theorem mem_stillPending {r : Rule} :
    r ∈ stillPending pending settled ↔
      r ∈ pending ∧ ¬ ∃ u ∈ settled, u.satisfies r.antecedent = true := by
  simp [stillPending]

theorem rankOn_cons (l : Level) (levels : List Level) :
    rankOn (l :: levels) v =
      if obeys l.pending v then .finite 0 else (rankOn levels v).succ := by
  rw [rankOn, rankOn, List.findIdx?_cons]
  cases obeys l.pending v with
  | true => rfl
  | false => cases List.findIdx? (fun l => obeys l.pending v) levels <;> rfl

/-- Who settles is who obeys. -/
theorem mem_settled_iff (h : settle pending unranked = (settled, violating)) :
    v ∈ settled ↔ v ∈ unranked ∧ obeys pending v = true := by
  rw [settle_eq, Prod.mk.injEq] at h
  rw [← h.1, List.mem_filter]

/-- Who goes on is who violates a rule. -/
theorem mem_violating_iff
    (h : settle pending unranked = (settled, violating)) :
    v ∈ violating ↔ v ∈ unranked ∧ obeys pending v = false := by
  rw [settle_eq, Prod.mk.injEq] at h
  rw [← h.2, List.mem_filter, Bool.not_eq_true']

/-- At the last level everybody violates a rule. -/
theorem obeys_eq_false_of_stop (h : settle pending unranked = ([], violating))
    (hu : u ∈ unranked) : obeys pending u = false := by
  rw [← Bool.not_eq_true]
  intro hobeys
  exact List.not_mem_nil ((mem_settled_iff h).mpr ⟨hu, hobeys⟩)

/-- So everybody is found violating. -/
theorem violating_eq_of_stop (h : settle pending unranked = ([], violating)) :
    violating = unranked := by
  have hall : ∀ u ∈ unranked, obeys pending u = false :=
    fun u hu => obeys_eq_false_of_stop h hu
  rw [settle_eq, Prod.mk.injEq] at h
  rw [← h.2, List.filter_eq_self]
  intro u hu
  rw [hall u hu]
  rfl

/-- Where nobody settles the climb ends. -/
theorem climb_of_stop (h : settle pending unranked = ([], violating)) :
    climb pending unranked = [⟨pending, violating.length⟩] := by
  rw [climb]
  split
  case h_1 h' =>
    rw [h] at h'
    cases h'
    rfl
  case h_2 h' =>
    rw [h] at h'
    cases h'

/-- Where somebody settles it goes on, with the rules that nobody there
meets. -/
theorem climb_of_step
    (h : settle pending unranked = (u :: settled, violating)) :
    climb pending unranked = ⟨pending, violating.length⟩ ::
      climb (stillPending pending (u :: settled)) violating := by
  rw [climb]
  split
  case h_1 h' =>
    rw [h] at h'
    cases h'
  case h_2 h' =>
    rw [h] at h'
    cases h'
    rfl

/-- The ranks of the last level: only who obeys its rules has a finite one. -/
theorem rankOn_climb_of_stop (h : settle pending unranked = ([], violating)) :
    rankOn (climb pending unranked) v =
      if obeys pending v then .finite 0 else .infinite := by
  rw [climb_of_stop h, rankOn_cons]
  rfl

/-- The ranks of any other level: who does not obey its rules goes on. -/
theorem rankOn_climb_of_step
    (h : settle pending unranked = (u :: settled, violating)) :
    rankOn (climb pending unranked) v =
      if obeys pending v then .finite 0
      else (rankOn (climb (stillPending pending (u :: settled)) violating)
        v).succ := by
  rw [climb_of_step h, rankOn_cons]

/-- Some valuation of a list with rank below `i` meets the antecedent of a
rule. -/
def MetBelow (rank : Valuation → Rank) (i : Nat) (vs : List Valuation)
    (r : Rule) : Prop :=
  ∃ u ∈ vs, rank u < .finite i ∧ u.satisfies r.antecedent = true

theorem metBelow_zero {rank : Valuation → Rank} {r : Rule} :
    ¬ MetBelow rank 0 unranked r := by
  intro hmet
  obtain ⟨u, _, hlt, _⟩ := hmet
  exact Rank.not_lt_zero _ hlt

/-- **One level up, what is met below splits**: it is met by a valuation that
settles at this level, or below as seen from the next one. -/
theorem metBelow_succ_of_step
    (h : settle pending unranked = (u :: settled, violating)) {r : Rule} :
    MetBelow (rankOn (climb pending unranked)) (i + 1) unranked r ↔
      (∃ w ∈ u :: settled, w.satisfies r.antecedent = true) ∨
        MetBelow
          (rankOn (climb (stillPending pending (u :: settled)) violating))
          i violating r := by
  constructor
  · intro hmet
    obtain ⟨w, hw, hlt, hsat⟩ := hmet
    cases hobeys : obeys pending w with
    | true => exact .inl ⟨w, (mem_settled_iff h).mpr ⟨hw, hobeys⟩, hsat⟩
    | false =>
        rw [rankOn_climb_of_step h, hobeys] at hlt
        exact .inr ⟨w, (mem_violating_iff h).mpr ⟨hw, hobeys⟩,
          Rank.succ_lt_succ_iff.mp hlt, hsat⟩
  · intro hmet
    rcases hmet with ⟨w, hw, hsat⟩ | ⟨w, hw, hlt, hsat⟩
    · obtain ⟨hmem, hobeys⟩ := (mem_settled_iff h).mp hw
      refine ⟨w, hmem, ?_, hsat⟩
      rw [rankOn_climb_of_step h, hobeys, if_pos rfl]
      simp
    · obtain ⟨hmem, hobeys⟩ := (mem_violating_iff h).mp hw
      refine ⟨w, hmem, ?_, hsat⟩
      rw [rankOn_climb_of_step h, hobeys]
      exact Rank.succ_lt_succ_iff.mpr hlt

/-- **The equation of the ladder.**  A valuation, listed or not, has rank at
most `i` exactly when each pending rule that it falsifies is met below `i`. -/
theorem rankOn_climb_le_iff (pending : List Rule) (unranked : List Valuation)
    (v : Valuation) (i : Nat) :
    rankOn (climb pending unranked) v ≤ .finite i ↔
      ∀ r ∈ pending, v.satisfies r.strict = false →
        MetBelow (rankOn (climb pending unranked)) i unranked r := by
  -- Along the climb, for every `v` at once: the ranks above a level are those
  -- of the rest of the climb, one higher.
  induction pending, unranked using climb.induct generalizing v i with
  | case1 pending unranked violating h =>
      -- Nobody listed obeys the rules, so nothing is ever met.
      have hnone : ∀ r, ¬ MetBelow (rankOn (climb pending unranked)) i
          unranked r := by
        intro r hmet
        obtain ⟨u, hu, hlt, _⟩ := hmet
        rw [rankOn_climb_of_stop h, obeys_eq_false_of_stop h hu] at hlt
        exact Rank.not_infinite_lt _ hlt
      rw [rankOn_climb_of_stop h]
      cases hobeys : obeys pending v with
      | true =>
          rw [if_pos rfl, Rank.finite_le_finite]
          simp only [Nat.zero_le, true_iff]
          exact forall_falsified_of_obeys hobeys
      | false =>
          obtain ⟨r, hr, hfalse⟩ := obeys_eq_false_iff.mp hobeys
          simp only [Bool.false_eq_true, if_false, Rank.infinite_le_iff,
            reduceCtorEq, false_iff]
          intro hall
          exact hnone r (hall r hr hfalse)
  | case2 pending unranked u settled violating h ih =>
      rw [rankOn_climb_of_step h]
      cases hobeys : obeys pending v with
      | true =>
          rw [if_pos rfl, Rank.finite_le_finite]
          simp only [Nat.zero_le, true_iff]
          exact forall_falsified_of_obeys hobeys
      | false =>
          simp only [Bool.false_eq_true, if_false]
          -- Rank 0 takes obedience; any other bound is one of the rest.
          cases i with
          | zero =>
              obtain ⟨r, hr, hfalse⟩ := obeys_eq_false_iff.mp hobeys
              simp only [Rank.not_succ_le_zero, false_iff]
              intro hall
              exact metBelow_zero (hall r hr hfalse)
          | succ i =>
              rw [Rank.succ_le_succ_iff, ih v i]
              -- A rule is still pending unless it is met at this level.
              constructor
              · intro hall r hr hfalse
                rw [metBelow_succ_of_step h]
                by_cases hmet :
                    ∃ w ∈ u :: settled, w.satisfies r.antecedent = true
                · exact .inl hmet
                · exact .inr
                    (hall r (mem_stillPending.mpr ⟨hr, hmet⟩) hfalse)
              · intro hall r hr hfalse
                obtain ⟨hr, hnot⟩ := mem_stillPending.mp hr
                have hmet := hall r hr hfalse
                rw [metBelow_succ_of_step h] at hmet
                exact hmet.resolve_left hnot

end Ladder

/-! ## §2. The model of a knowledge base. -/

namespace KnowledgeBase

variable {kb : KnowledgeBase} {α : Alphabet} {v : Valuation} {i : Nat}

/-- The rank that the climb over an alphabet gives to a valuation. -/
def worldRank (kb : KnowledgeBase) (α : Alphabet) (v : Valuation) : Rank :=
  Ladder.rankOn (Ladder.climb (Ladder.rules kb) (α.valuations true).rest) v

/-- The model looks up, at the number of a valuation, the rank of the
valuation itself. -/
theorem rank?_rankOver (h : v.alphabet = α) :
    (kb.rankOver α).value.rank? v = some (kb.worldRank α v) := by
  -- The valuation listed at that number need not be `v` itself, which may
  -- leave atoms unassigned; but the two give atoms the same values.
  obtain ⟨w, hw, hbeq⟩ := Valuations.exists_getElem?_rest_beq true h
  have hvalue : w.value = v.value := Valuation.value_eq_of_beq hbeq
  have hrank : ((α.valuations true).rest.map (kb.worldRank α))[
      v.trueBits.toNat]? = some (kb.worldRank α w) := by
    rw [List.getElem?_map, hw, Option.map_some]
  show (if v.alphabet = α then
    ((α.valuations true).rest.map (kb.worldRank α)).toArray[
      v.trueBits.toNat]? else none) = _
  rw [if_pos h, List.getElem?_toArray, hrank]
  exact congrArg some (Ladder.rankOn_congr hvalue)

/-- **The equation of the ranked model.**  A valuation has rank at most `i`
exactly when the antecedent of each conditional whose strict reading it
falsifies is true at some valuation of rank below `i`. -/
theorem worldRank_le_iff :
    kb.worldRank α v ≤ .finite i ↔
      ∀ s ∈ kb, v.satisfies s.materialize = false →
        ∃ u : Valuation, u.alphabet = α ∧ kb.worldRank α u < .finite i ∧
          u.satisfies s.antecedent = true := by
  have hmet : ∀ s : Conditional,
      Ladder.MetBelow (kb.worldRank α) i (α.valuations true).rest
        ⟨s.antecedent, s.materialize⟩ ↔
      ∃ u : Valuation, u.alphabet = α ∧ kb.worldRank α u < .finite i ∧
        u.satisfies s.antecedent = true := by
    intro s
    constructor
    · intro hmet
      obtain ⟨u, hu, hlt, hsat⟩ := hmet
      exact ⟨u, Valuations.alphabet_of_mem_rest hu, hlt, hsat⟩
    · intro hmet
      obtain ⟨u, hu, hlt, hsat⟩ := hmet
      -- A valuation that is not listed reads like one that is.
      obtain ⟨w, hw, hvalue⟩ := Valuations.exists_mem_rest_of_alphabet true hu
      have hrank : kb.worldRank α w = kb.worldRank α u :=
        Ladder.rankOn_congr hvalue
      have hsame : w.satisfies s.antecedent = u.satisfies s.antecedent := by
        rw [Valuation.satisfies, hvalue, Valuation.satisfies]
      exact ⟨w, hw, hrank ▸ hlt, hsame.trans hsat⟩
  have heq := Ladder.rankOn_climb_le_iff (Ladder.rules kb)
    (α.valuations true).rest v i
  rw [worldRank, heq]
  constructor
  · intro h s hs hfalse
    exact (hmet s).mp (h _ (List.mem_map.mpr ⟨s, hs, rfl⟩) hfalse)
  · intro h r hr hfalse
    obtain ⟨s, hs, rfl⟩ := List.mem_map.mp hr
    exact (hmet s).mpr (h s hs hfalse)

end KnowledgeBase

end SystemZ
