/-
  SystemZ.Proofs.Tables
  ─────────────────────
  **THE TABLE OF A RANKED MODEL LOSES AND INVENTS NOTHING.**

  The table goes through all ranks from the greatest finite one down to 0.  In
  the model of a base no such rank is left out, so these are the ranks that
  are given, and the valuations under them are the enumeration, rearranged.

  Main results:
    `mem_ranksInUse_rankOver`   the headers are those of the given ranks
    `perm_valuations`           the valuations are the enumeration
    `tables_lose_and_invent_nothing`
-/
import SystemZ.Proofs.Counterparts
import SystemZ.Proofs.Levels
import SystemZ.Proofs.TableReading
import SystemZ.Proofs.Writing

namespace SystemZ

/-! ## §1. The ranks of a table. -/

namespace RankedModel

/-- The ranks of a table come in strictly decreasing order. -/
theorem pairwise_ranksInUse (m : RankedModel) :
    m.ranksInUse.Pairwise fun q r => r < q := by
  unfold ranksInUse
  rw [List.pairwise_append]
  refine ⟨?_, ?_, ?_⟩
  · split
    · exact List.pairwise_singleton _ _
    · exact .nil
  · cases m.maxFinite? with
    | none => exact .nil
    | some top =>
        simp only [List.pairwise_map, List.pairwise_reverse,
          Rank.finite_lt_finite]
        exact List.pairwise_lt_range
  · intro q hq r hr
    have hq : q = .infinite := by
      split at hq
      · exact List.mem_singleton.mp hq
      · cases hq
    cases htop : m.maxFinite? with
    | none => rw [htop] at hr; cases hr
    | some top =>
        rw [htop] at hr
        obtain ⟨i, _, rfl⟩ := List.mem_map.mp hr
        rw [hq]
        exact Rank.finite_lt_infinite i

end RankedModel

/-- **In the model of a base exactly the ranks that are given have a
header.** -/
theorem KnowledgeBase.mem_ranksInUse_rankOver {kb : KnowledgeBase}
    {α : Alphabet} {r : Rank} :
    r ∈ (kb.rankOver α).value.ranksInUse ↔
      r ∈ (kb.rankOver α).value.usedRanks := by
  refine ⟨?_, RankedModel.mem_ranksInUse_of_mem_usedRanks⟩
  intro h
  cases r with
  | finite i =>
      -- There is no gap below the greatest finite rank.
      obtain ⟨top, htop, hle⟩ := RankedModel.finite_mem_ranksInUse_iff.mp h
      exact (no_gap_of_maxFinite?_eq htop).2 i hle
  | infinite =>
      exact RankedModel.hasInfinite_iff.mp
        (RankedModel.infinite_mem_ranksInUse_iff.mp h)

/-! ## §2. The valuations of a table. -/

/-- Taking one part after the other rearranges a list, if the parts have
different keys and no key is missing. -/
theorem perm_flatMap_filter {α β : Type} [DecidableEq β] (key : α → β)
    {keys : List β} (hkeys : keys.Nodup) (l : List α)
    (h : ∀ x ∈ l, key x ∈ keys) :
    (keys.flatMap fun k => l.filter fun x => key x == k).Perm l := by
  -- The part of the first key is taken out, and the others are what is left.
  induction keys generalizing l with
  | nil =>
      have hnil : l = [] := List.eq_nil_iff_forall_not_mem.mpr fun x hx =>
        List.not_mem_nil (h x hx)
      rw [hnil]
      exact .nil
  | cons k keys ih =>
      obtain ⟨hk, hkeys⟩ := List.nodup_cons.mp hkeys
      have hothers := ih hkeys (l.filter fun x => !(key x == k)) (by
        intro x hx
        obtain ⟨hmem, hne⟩ := List.mem_filter.mp hx
        have hkey := h x hmem
        simp at hne
        simpa [hne] using hkey)
      -- The other parts are the same without the first one.
      have hsame : (keys.flatMap fun j => l.filter fun x => key x == j) =
          keys.flatMap fun j => (l.filter fun x => !(key x == k)).filter
            fun x => key x == j := by
        refine List.flatMap_congr ?_
        intro j hj
        have hne : j ≠ k := by
          intro hjk
          exact hk (hjk ▸ hj)
        rw [List.filter_filter]
        refine List.filter_congr ?_
        intro x _
        by_cases hx : key x = j
        · simp [hx, hne]
        · simp [hx]
      rw [List.flatMap_cons, hsame]
      exact (hothers.append_left _).trans
        (List.filter_append_perm (fun x => key x == k) l)

/-- An enumeration has each valuation of its alphabet once. -/
theorem Valuations.countP_beq_rest {α : Alphabet} (complete : Bool)
    {v : Valuation} (h : v.alphabet = α) :
    (α.valuations complete).rest.countP (fun u => u == v) = 1 := by
  -- Valuations of one alphabet are told apart by their masks.
  have hmasks : (α.valuations complete).rest.countP (fun u => u == v) =
      ((α.valuations complete).rest.map fun u => u.trueBits.toNat).count
        v.trueBits.toNat := by
    rw [List.count, List.countP_map]
    refine List.countP_congr ?_
    intro u hu
    have hα : u.alphabet = v.alphabet := (alphabet_of_mem_rest hu).trans h.symm
    simp [Valuation.beq_iff, hα, UInt64.toNat_inj]
  obtain ⟨w, hw, hbeq⟩ := exists_getElem?_rest_beq complete h
  rw [hmasks]
  refine List.count_eq_one_of_mem ?_ ?_
  · rw [masks_rest]
    exact List.nodup_range' 1
  · exact List.mem_map.mpr ⟨w, List.mem_of_getElem? hw,
      congrArg UInt64.toNat (Valuation.beq_iff.mp hbeq).1⟩

namespace RankedModel

variable {m : RankedModel} {v : Valuation}

/-- **The valuations of the table are the enumeration, rearranged.** -/
theorem perm_valuations (m : RankedModel) :
    (m.ranksInUse.flatMap m.valuationsOfRank).Perm
      (m.alphabet.valuations true).rest := by
  have hnodup : m.ranksInUse.Nodup :=
    m.pairwise_ranksInUse.imp fun hlt heq => by
      rw [heq] at hlt
      exact absurd hlt (lt_irrefl _)
  have hperm := perm_flatMap_filter Prod.snd hnodup m.entries (by
    intro e he
    have hrank := (mem_entries.mp he).2
    have hα := Valuations.alphabet_of_mem_rest (mem_entries.mp he).1
    exact mem_ranksInUse_of_mem_usedRanks ⟨e.1, hα, hrank⟩)
  have hmap := hperm.map Prod.fst
  rw [map_fst_entries, List.map_flatMap] at hmap
  exact hmap

/-- So each valuation of the alphabet is in the table once. -/
theorem countP_valuations (h : v.alphabet = m.alphabet) :
    (m.ranksInUse.flatMap m.valuationsOfRank).countP (fun u => u == v) = 1 :=
  m.perm_valuations.countP_eq _ ▸ Valuations.countP_beq_rest true h

end RankedModel

/-! ## §3. The table of the model of a base. -/

/-- A text shows a ranked model. -/
structure RankedModel.ShownBy (m : RankedModel) (ranks : List Rank)
    (text : String) : Prop where
  /-- Each of the ranks has a header, and then its valuations a line each. -/
  text_eq : text = String.join (ranks.flatMap fun r =>
    m.header r :: (m.valuationsOfRank r).map m.line)
  /-- These are the ranks that are given. -/
  mem_iff : ∀ r, r ∈ ranks ↔ r ∈ m.usedRanks
  /-- They come in strictly decreasing order. -/
  decreasing : ranks.Pairwise fun q r => r < q
  /-- A header shows its rank, with blanks before it. -/
  header_eq : ∀ r, ∃ i, m.header r = blanks i ++ r.text ++ ": --------\n"
  /-- A line shows the true atoms and the false atoms, with blanks behind
  each group. -/
  line_eq : ∀ v, ∃ i j k, m.line v = blanks i ++ "\x7b " ++
    (Valuation.symbolsText v.trueAtoms ++ blanks j) ++ " \x7d \x7b " ++
    (Valuation.symbolsText v.falseAtoms ++ blanks k) ++ " \x7d\n"
  /-- The valuations under a header come in strictly increasing order. -/
  increasing : ∀ r,
    (m.valuationsOfRank r).Pairwise fun v w => compare v w = .lt
  /-- They are those that have the rank. -/
  rank?_iff : ∀ v r,
    m.rank? v = some r ↔ ∃ u ∈ m.valuationsOfRank r, (u == v) = true
  /-- Each valuation of the alphabet has one line. -/
  once : ∀ v : Valuation, v.alphabet = m.alphabet →
    (ranks.flatMap m.valuationsOfRank).countP (fun u => u == v) = 1

/-- **The model of a base is shown by its table.** -/
theorem KnowledgeBase.shownBy_rankOver (kb : KnowledgeBase) (α : Alphabet) :
    (kb.rankOver α).value.ShownBy (kb.rankOver α).value.ranksInUse
      (kb.rankOver α).value.table where
  text_eq := rfl
  mem_iff r := mem_ranksInUse_rankOver
  decreasing := RankedModel.pairwise_ranksInUse _
  header_eq r := by
    refine ⟨(kb.rankOver α).value.labelWidth - r.label.length, ?_⟩
    rw [← String.toList_inj, RankedModel.toList_header]
    simp [blanks]
  line_eq v := ⟨_, _, _, rfl⟩
  increasing r := RankedModel.pairwise_valuationsOfRank _ r
  rank?_iff v r := RankedModel.rank?_eq_some_iff_valuationsOfRank
  once v hv := RankedModel.countP_valuations hv

/-- **The table of a ranked model loses and invents nothing.**  For the model
of a base, what is written to a sink without limit is one header for each rank
that is given, and for no other, in strictly decreasing order, and under it
one line for each valuation of this rank, in increasing order, with its true
atoms and its false atoms; each valuation of the alphabet has exactly one
line.  And models whose symbols are clear are equal if the same text is
written of both. -/
theorem tables_lose_and_invent_nothing :
    (∀ (kb : KnowledgeBase) (given : Option Alphabet)
      (t : Traced RankedModel), kb.minimalModel given = .ok t →
      ∃ ranks text,
        t.value.writeTo Sink.unlimited = (⟨text.toUTF8, none⟩, .ok ()) ∧
        t.value.ShownBy ranks text) ∧
    ∀ m n : RankedModel, m.alphabet.IsClear → n.alphabet.IsClear →
      (m.writeTo Sink.unlimited).1.taken =
        (n.writeTo Sink.unlimited).1.taken → m = n := by
  constructor
  · intro kb given t ht
    obtain ⟨α, rfl⟩ := KnowledgeBase.exists_rankOver_eq ht
    exact ⟨_, _, RankedModel.writeTo_unlimited _, kb.shownBy_rankOver α⟩
  · intro m n hm hn h
    rw [RankedModel.writeTo_unlimited, RankedModel.writeTo_unlimited] at h
    exact RankedModel.eq_of_table_eq hm hn (String.toByteArray_inj.mp h)

theorem tables_of_penguins_and_looseBirds_show_one_model :
    penguins ≠ looseBirds ∧ birdAlphabet.IsClear ∧
      ∃ t t' ranks text, penguins.minimalModel (some birdAlphabet) = .ok t ∧
        looseBirds.minimalModel (some birdAlphabet) = .ok t' ∧
        t.value.writeTo Sink.unlimited = (⟨text.toUTF8, none⟩, .ok ()) ∧
        t'.value.writeTo Sink.unlimited = (⟨text.toUTF8, none⟩, .ok ()) ∧
        t.value.ShownBy ranks text ∧ t.value = t'.value := by
  have hclear : birdAlphabet.IsClear := by decide
  have hm := KnowledgeBase.minimalModel_some penguins birdAlphabet
  have hm' := KnowledgeBase.minimalModel_some looseBirds birdAlphabet
  have htable : (penguins.rankOver birdAlphabet).value.table =
      (looseBirds.rankOver birdAlphabet).value.table := by
    decide +kernel
  obtain ⟨hshown, hread⟩ := tables_lose_and_invent_nothing
  obtain ⟨ranks, text, hwrite, htext⟩ := hshown penguins _ _ hm
  have hwrite' : (looseBirds.rankOver birdAlphabet).value.writeTo
      Sink.unlimited = (⟨text.toUTF8, none⟩, .ok ()) := by
    rw [← hwrite, RankedModel.writeTo_unlimited,
      RankedModel.writeTo_unlimited, htable]
  refine ⟨by decide, hclear, _, _, ranks, text, hm, hm', hwrite, hwrite',
    htext, ?_⟩
  exact hread _ _ hclear hclear (by rw [hwrite, hwrite'])

end SystemZ
