/-
  SystemZ.Proofs.Alignment
  ────────────────────────
  **THE COLUMNS OF THE TABLES STAND UNDER EACH OTHER.**

  A column is aligned as long as nothing in it is wider than the column.  For
  labels this holds since greater numbers have at least as many digits, so the
  greatest finite rank has the widest label, and the sign of infinity is no
  wider than one digit.  For groups of atoms it holds since a part of the
  alphabet, with blanks between its symbols, is no longer than the whole.

  Positions count characters, so nothing depends on what the symbols are.  The
  colon of a label is the first one in its line, and so is the brace that
  opens a set of conditionals; the four braces around the two groups of a
  valuation are found by counting.

  Main results:
    `Rank.length_label_le`        labels fit their column
    `length_symbolsText_le`       groups fit theirs
    `bracesAt_template`           where the four braces stand
    `tables_are_aligned`
-/
import Mathlib.Algebra.Order.BigOperators.Group.List
import Mathlib.Algebra.Order.Group.Nat
import SystemZ.Proofs.Exceptionality
import SystemZ.Proofs.Partition
import SystemZ.Proofs.RankLookup
import SystemZ.Proofs.ValuationOrder
import SystemZ.Report.RankedModel

namespace SystemZ

/-! ## §1. Labels. -/

/-- Greater numbers have at least as many digits. -/
theorem length_toString_le {m n : Nat} (h : m ≤ n) :
    (toString m).length ≤ (toString n).length := by
  have hpos : 0 < (toString n).length := Nat.length_repr_pos
  -- At most `k` digits means to be below `10 ^ k`.
  have hn : n < 10 ^ (toString n).length :=
    (Nat.length_repr_le_iff hpos).mp (Nat.le_refl _)
  exact (Nat.length_repr_le_iff hpos).mpr (by omega)

namespace Rank

variable {r : Rank} {k : Nat}

/-- A finite rank is written with digits. -/
theorem isDigit_of_mem_text {n : Nat} {c : Char}
    (hc : c ∈ (finite n).text.toList) : c.isDigit = true := by
  have hdigits : c ∈ Nat.toDigits 10 n := by
    rw [← Nat.toList_repr]
    exact hc
  exact Nat.isDigit_of_mem_toDigits (by omega) (by omega) hdigits

/-- A rank is written with digits, or with the sign of infinity. -/
theorem not_mem_text {c : Char} (hdigit : c.isDigit = false)
    (hinfinity : c ≠ '∞') : c ∉ r.text.toList := by
  intro hc
  cases r with
  | finite n =>
      rw [isDigit_of_mem_text hc] at hdigit
      cases hdigit
  | infinite =>
      have h : c = '∞' := by simpa [text] using hc
      exact hinfinity h

theorem toList_label (r : Rank) : r.label.toList = r.text.toList ++ [':'] := by
  simp [label]

/-- The colon takes one character. -/
theorem length_label (r : Rank) : r.label.length = r.text.length + 1 :=
  String.length_append _ _

/-- **A label is no wider than that of a greater finite rank**, and the label
of infinity is no wider than any. -/
theorem length_label_le (h : ∀ n, r = .finite n → n ≤ k) :
    r.label.length ≤ (toString k).length + 1 := by
  rw [length_label]
  cases r with
  | finite n =>
      have hle := length_toString_le (h n rfl)
      show (toString n).length + 1 ≤ _
      omega
  | infinite =>
      -- One character, and there is a digit at least.
      have hpos : 0 < (toString k).length := Nat.length_repr_pos
      show 1 + 1 ≤ _
      omega

end Rank

/-- The character stands at a position of the text, and nowhere before it. -/
def StandsFirstAt (c : Char) (i : Nat) (text : String) : Prop :=
  text.toList[i]? = some c ∧ c ∉ text.toList.take i

theorem standsFirstAt_of_split {c : Char} {i : Nat} {text : String}
    (before after : List Char) (h : text.toList = before ++ c :: after)
    (hi : before.length = i) (hc : c ∉ before) : StandsFirstAt c i text := by
  subst hi
  rw [StandsFirstAt, h]
  simp [hc]

theorem toList_alignRight (width : Nat) (text : String) :
    (alignRight width text).toList =
      List.replicate (width - text.length) ' ' ++ text.toList := by
  simp [alignRight, blanks]

theorem toList_alignLeft (width : Nat) (text : String) :
    (alignLeft width text).toList =
      text.toList ++ List.replicate (width - text.length) ' ' := by
  simp [alignLeft, blanks]

/-- A label in its column, character by character. -/
theorem toList_alignRight_label (width : Nat) (r : Rank) :
    (alignRight width r.label).toList =
      List.replicate (width - r.label.length) ' ' ++
        (r.text.toList ++ [':']) := by
  rw [toList_alignRight, Rank.toList_label]

/-- Blanks and the text of a rank contain nothing but blanks, digits and the
sign of infinity. -/
theorem not_mem_blanks_append_text {c : Char} (n : Nat) (r : Rank)
    (hblank : c ≠ ' ') (hdigit : c.isDigit = false) (hinfinity : c ≠ '∞') :
    c ∉ List.replicate n ' ' ++ r.text.toList := by
  intro h
  rcases List.mem_append.mp h with h | h
  · exact hblank (List.eq_of_mem_replicate h)
  · exact Rank.not_mem_text hdigit hinfinity h

/-- **The colon of a label ends its column**, and is the first in its line. -/
theorem standsFirstAt_colon {width : Nat} {r : Rank} (rest : String)
    (h : r.label.length ≤ width) :
    StandsFirstAt ':' (width - 1) (alignRight width r.label ++ rest) := by
  refine standsFirstAt_of_split
    (List.replicate (width - r.label.length) ' ' ++ r.text.toList)
    rest.toList ?_ ?_
    (not_mem_blanks_append_text _ r (by decide) (by decide) (by decide))
  · simp [toList_alignRight_label]
  · have hlabel := r.length_label
    rw [List.length_append, List.length_replicate, String.length_toList]
    omega

/-- **The brace behind a label and a blank is the first in its line.** -/
theorem standsFirstAt_brace {width : Nat} {r : Rank} (rest : String)
    (h : r.label.length ≤ width) :
    StandsFirstAt '\x7b' (width + 1)
      (alignRight width r.label ++ " " ++ ("\x7b" ++ rest)) := by
  refine standsFirstAt_of_split
    (List.replicate (width - r.label.length) ' ' ++
      r.text.toList ++ [':', ' ']) rest.toList ?_ ?_ ?_
  · simp [toList_alignRight_label]
  · have hlabel := r.length_label
    simp only [List.length_append, List.length_replicate,
      String.length_toList, List.length_cons, List.length_nil]
    omega
  · have hnot := not_mem_blanks_append_text (c := '\x7b')
      (width - r.label.length) r (by decide) (by decide) (by decide)
    rw [List.mem_append]
    simp only [not_or]
    exact ⟨hnot, by decide⟩

/-! ## §2. Groups of atoms. -/

/-- The width of the symbols of some atoms with a blank behind each. -/
def spacedWidth (l : List Atom) : Nat :=
  (l.map fun a => a.symbol.length + 1).sum

theorem groupWidth_eq (α : Alphabet) :
    RankedModel.groupWidth α = spacedWidth α.atoms.toList - 1 := by
  unfold RankedModel.groupWidth spacedWidth
  congr 1
  induction α.atoms.toList with
  | nil => rfl
  | cons a as ih => simp [ih]

/-- **There is a blank between two symbols, but none behind the last.** -/
theorem length_symbolsText (l : List Atom) :
    (Valuation.symbolsText l).length = spacedWidth l - 1 := by
  unfold Valuation.symbolsText spacedWidth
  induction l with
  | nil => rfl
  | cons a as ih =>
      cases as with
      | nil => simp
      | cons b bs =>
          rw [List.map_cons, List.map_cons, String.intercalate_cons_cons,
            String.length_append, String.length_append, ← List.map_cons, ih]
          show a.symbol.length + 1 + _ = _
          simp only [List.map_cons, List.sum_cons]
          omega

/-- **A part of the alphabet fits the column of the whole.** -/
theorem length_symbolsText_le {l : List Atom} {α : Alphabet}
    (h : l.Sublist α.atoms.toList) :
    (Valuation.symbolsText l).length ≤ RankedModel.groupWidth α := by
  have hle : spacedWidth l ≤ spacedWidth α.atoms.toList :=
    (h.map _).sum_le_sum fun _ _ => Nat.zero_le _
  rw [length_symbolsText, groupWidth_eq]
  omega

theorem Valuation.trueAtoms_sublist (v : Valuation) :
    v.trueAtoms.Sublist v.alphabet.atoms.toList := by
  rw [trueAtoms_eq_filter]
  exact List.filter_sublist

theorem Valuation.falseAtoms_sublist (v : Valuation) :
    v.falseAtoms.Sublist v.alphabet.atoms.toList := by
  rw [falseAtoms_eq_filter]
  exact List.filter_sublist

/-- With fewer than 65000 characters in all, the symbols of an alphabet fit a
column whose width is a number of 16 bits. -/
theorem groupWidth_lt {α : Alphabet}
    (h : (α.atoms.toList.map fun a => a.symbol.length).sum < 65000) :
    RankedModel.groupWidth α < 2 ^ 16 := by
  have hsum : ∀ l : List Atom, spacedWidth l =
      (l.map fun a => a.symbol.length).sum + l.length := by
    intro l
    induction l with
    | nil => rfl
    | cons a as ih =>
        show a.symbol.length + 1 + spacedWidth as = _
        rw [ih]
        simp
        omega
  have hsize : α.atoms.toList.length ≤ 63 := α.size_le
  rw [groupWidth_eq, hsum]
  omega

/-! ## §3. Lines of valuations. -/

/-- An indented line with two groups in braces. -/
def template (indent : Nat) (left right : String) : String :=
  blanks indent ++ "\x7b " ++ left ++ " \x7d \x7b " ++ right ++ " \x7d\n"

theorem toList_template (indent : Nat) (left right : String) :
    (template indent left right).toList =
      List.replicate indent ' ' ++ '\x7b' :: ' ' :: (left.toList ++
        ' ' :: '\x7d' :: ' ' :: '\x7b' :: ' ' :: (right.toList ++
          [' ', '\x7d', '\n'])) := by
  simp [template, blanks]

/-- What stands behind a list is at the position of its length. -/
theorem getElem?_of_split {l : List Char} {c : Char} {i : Nat}
    (before after : List Char) (h : l = before ++ c :: after) (hi : before.length = i) :
    l[i]? = some c := by
  rw [h, ← hi]
  simp

/-- A line with two groups of one width: where its four braces stand, and
where it ends. -/
structure BracesAt (indent width : Nat) (text : String) : Prop where
  first_open : text.toList[indent]? = some '\x7b'
  first_close : text.toList[indent + width + 3]? = some '\x7d'
  second_open : text.toList[indent + width + 5]? = some '\x7b'
  second_close : text.toList[indent + 2 * width + 8]? = some '\x7d'
  length_eq : text.length = indent + 2 * width + 10

/-- **Groups of one width put the braces at fixed positions.** -/
theorem bracesAt_template {indent width : Nat} {left right : String}
    (hleft : left.length = width) (hright : right.length = width) :
    BracesAt indent width (template indent left right) := by
  rw [← String.length_toList] at hleft hright
  have hlist := toList_template indent left right
  generalize left.toList = l at hleft hlist
  generalize right.toList = r at hright hlist
  -- A brace stands where what is before it ends.
  constructor
  case first_open =>
    rw [hlist]
    exact getElem?_of_split _ _ rfl List.length_replicate
  case first_close =>
    refine getElem?_of_split
      (List.replicate indent ' ' ++ '\x7b' :: ' ' :: (l ++ [' ']))
      (' ' :: '\x7b' :: ' ' :: (r ++ [' ', '\x7d', '\n'])) ?_ ?_
    · simp [hlist]
    · simp [hleft]
      omega
  case second_open =>
    refine getElem?_of_split
      (List.replicate indent ' ' ++ '\x7b' :: ' ' :: (l ++
        [' ', '\x7d', ' ']))
      (' ' :: (r ++ [' ', '\x7d', '\n'])) ?_ ?_
    · simp [hlist]
    · simp [hleft]
      omega
  case second_close =>
    refine getElem?_of_split
      (List.replicate indent ' ' ++ '\x7b' :: ' ' :: (l ++
        ' ' :: '\x7d' :: ' ' :: '\x7b' :: ' ' :: (r ++ [' '])))
      ['\n'] ?_ ?_
    · simp [hlist]
    · simp [hleft, hright]
      omega
  case length_eq =>
    rw [← String.length_toList, hlist]
    simp [hleft, hright]
    omega

/-! ## §4. The table of a ranked model. -/

namespace RankedModel

variable {m : RankedModel} {r : Rank} {v : Valuation}

theorem finite_mem_ranksInUse_iff {n : Nat} :
    .finite n ∈ m.ranksInUse ↔ ∃ top, m.maxFinite? = some top ∧ n ≤ top := by
  unfold ranksInUse
  have hnot : Rank.finite n ∉
      if m.hasInfinite = true then [Rank.infinite] else [] := by
    split <;> simp
  rw [List.mem_append, or_iff_right hnot]
  cases m.maxFinite? with
  | none => simp
  | some top =>
      rw [List.mem_map]
      constructor
      · intro h
        obtain ⟨i, hi, heq⟩ := h
        rw [List.mem_reverse, List.mem_range] at hi
        cases heq
        exact ⟨top, rfl, by omega⟩
      · intro h
        obtain ⟨k, hk, hle⟩ := h
        cases hk
        refine ⟨n, ?_, rfl⟩
        rw [List.mem_reverse, List.mem_range]
        omega

theorem infinite_mem_ranksInUse_iff :
    .infinite ∈ m.ranksInUse ↔ m.hasInfinite = true := by
  unfold ranksInUse
  cases m.maxFinite? <;> simp

/-- No label of the table is wider than its column. -/
theorem length_label_le_labelWidth (hr : r ∈ m.ranksInUse) :
    r.label.length ≤ m.labelWidth := by
  refine Rank.length_label_le ?_
  intro n hn
  subst hn
  obtain ⟨top, htop, hle⟩ := finite_mem_ranksInUse_iff.mp hr
  rw [htop]
  exact hle

theorem alphabet_of_mem_valuationsOfRank (hv : v ∈ m.valuationsOfRank r) :
    v.alphabet = m.alphabet :=
  Valuations.alphabet_of_mem_rest
    (mem_entries.mp (mem_valuationsOfRank.mp hv)).1

/-- The lines of a ranked model stand under each other. -/
structure Aligned (m : RankedModel) : Prop where
  /-- There are headers and valuations. -/
  mem_lines_iff : ∀ text, text ∈ m.lines ↔ ∃ r ∈ m.ranksInUse,
    text = m.header r ∨ ∃ v ∈ m.valuationsOfRank r, text = m.line v
  /-- The colon of every header is at one position. -/
  header_colon : ∀ r ∈ m.ranksInUse,
    StandsFirstAt ':' (m.labelWidth - 1) (m.header r)
  /-- All headers have one length. -/
  length_header : ∀ r ∈ m.ranksInUse, (m.header r).length = m.labelWidth + 10
  /-- The line of a valuation is the template with two groups. -/
  line_eq : ∀ v, m.line v = template (m.labelWidth + 2)
    (alignLeft (groupWidth m.alphabet) (Valuation.symbolsText v.trueAtoms))
    (alignLeft (groupWidth m.alphabet) (Valuation.symbolsText v.falseAtoms))
  /-- Its braces are at one position each, and all lines have one length. -/
  line_braces : ∀ r, ∀ v ∈ m.valuationsOfRank r,
    BracesAt (m.labelWidth + 2) (groupWidth m.alphabet) (m.line v)

/-- **The table of every ranked model is aligned.** -/
theorem aligned (m : RankedModel) : m.Aligned where
  mem_lines_iff text := by
    simp only [lines, List.mem_flatMap, List.mem_cons, List.mem_map, eq_comm]
  header_colon r hr :=
    standsFirstAt_colon _ (length_label_le_labelWidth hr)
  length_header r hr := by
    rw [header, String.length_append,
      length_alignRight (length_label_le_labelWidth hr)]
    rfl
  line_eq v := rfl
  line_braces r v hv := by
    -- The columns are as wide as the alphabet of the valuation.
    have hα := alphabet_of_mem_valuationsOfRank hv
    show BracesAt _ _ (template _ _ _)
    rw [← hα]
    exact bracesAt_template
      (length_alignLeft (length_symbolsText_le v.trueAtoms_sublist))
      (length_alignLeft (length_symbolsText_le v.falseAtoms_sublist))

end RankedModel

/-! ## §5. The table of a stratification. -/

namespace Stratification

variable {z : Stratification} {r : Rank} {part : KnowledgeBase}

/-- No label of the table is wider than its column. -/
theorem length_label_le_labelWidth (h : (r, part) ∈ z.toList) :
    r.label.length ≤ z.labelWidth := by
  refine Rank.length_label_le ?_
  intro n hn
  subst hn
  have hget : z.strata[n]? = some part := mem_toList_iff_get?.mp h
  have hlt : n < z.finiteRanks := (List.getElem?_eq_some_iff.mp hget).1
  omega

/-- A line is a label in its column, a blank and the conditionals. -/
theorem line_eq (z : Stratification) (r : Rank) (part : KnowledgeBase) :
    z.line r part = alignRight z.labelWidth r.label ++ " " ++ ("\x7b" ++ (" " ++
      ", ".intercalate (part.toList.map Conditional.text) ++ " \x7d" ++
      "\n")) := by
  have hopen : "\x7b " = "\x7b" ++ " " := by decide
  rw [line, KnowledgeBase.text, hopen]
  simp only [String.append_assoc]

/-- No rank has two lines. -/
theorem nodup_map_fst_toList (z : Stratification) :
    (z.toList.map Prod.fst).Nodup := by
  rw [map_fst_toList, List.nodup_append]
  refine ⟨?_, by simp, by simp⟩
  exact List.nodup_range.map fun _ _ h => Rank.finite.inj h

/-- The lines of a stratification of a base stand under each other. -/
structure Aligned (z : Stratification) (kb : KnowledgeBase) : Prop where
  /-- Every line shows a rank and its part. -/
  lines_eq : z.lines = z.toList.map fun e =>
    alignRight z.labelWidth e.1.label ++ " " ++ e.2.text ++ "\n"
  /-- The colon is at one position. -/
  colon : ∀ text ∈ z.lines, StandsFirstAt ':' (z.labelWidth - 1) text
  /-- So is the opening brace. -/
  brace : ∀ text ∈ z.lines, StandsFirstAt '\x7b' (z.labelWidth + 1) text
  /-- Finite ranks come in increasing order from 0, infinity comes last. -/
  ranks_eq : z.toList.map Prod.fst =
    (List.range z.finiteRanks).map .finite ++ [.infinite]
  /-- Every conditional of the base is in exactly one line. -/
  exists_unique : ∀ s ∈ kb,
    ∃! i : Nat, ∃ (r : Rank) (part : KnowledgeBase),
      z.toList[i]? = some (r, part) ∧ s ∈ part
  /-- No other conditional is in any. -/
  mem_of_mem_part : ∀ r part, (r, part) ∈ z.toList → ∀ s ∈ part, s ∈ kb

variable {kb : KnowledgeBase}

/-- **A conditional is in the part of one line.** -/
theorem Partitions.exists_unique_line {s : Conditional}
    (hz : z.Partitions kb) (hs : s ∈ kb) :
    ∃! i : Nat, ∃ (r : Rank) (part : KnowledgeBase),
      z.toList[i]? = some (r, part) ∧ s ∈ part := by
  obtain ⟨r, ⟨part, hpart, hmem⟩, hunique⟩ := hz.exists_unique s hs
  obtain ⟨i, hi⟩ :=
    List.mem_iff_getElem?.mp ((hz.mem_toList_iff r part).mpr hpart)
  refine ⟨i, ⟨r, part, hi, hmem⟩, ?_⟩
  intro j hj
  obtain ⟨r', part', hj, hmem'⟩ := hj
  have hpart' : z.get? r' = some part' :=
    (hz.mem_toList_iff r' part').mp (List.mem_of_getElem? hj)
  have hr : r' = r := hunique r' ⟨part', hpart', hmem'⟩
  -- Two lines of one rank are the same line.
  have hlt : j < (z.toList.map Prod.fst).length := by
    rw [List.length_map]
    exact (List.getElem?_eq_some_iff.mp hj).1
  refine (List.getElem?_inj hlt z.nodup_map_fst_toList).mp ?_
  rw [List.getElem?_map, List.getElem?_map, hi, hj, hr]
  rfl

/-- **The table of every partition is aligned.** -/
theorem Partitions.aligned (hz : z.Partitions kb) : z.Aligned kb where
  lines_eq := rfl
  colon text htext := by
    obtain ⟨e, he, rfl⟩ := List.mem_map.mp htext
    show StandsFirstAt _ _ (alignRight _ _ ++ " " ++ _ ++ _)
    rw [String.append_assoc, String.append_assoc]
    exact standsFirstAt_colon _ (length_label_le_labelWidth he)
  brace text htext := by
    obtain ⟨e, he, rfl⟩ := List.mem_map.mp htext
    show StandsFirstAt _ _ (z.line e.1 e.2)
    rw [line_eq]
    exact standsFirstAt_brace _ (length_label_le_labelWidth he)
  ranks_eq := hz.ranks_in_use
  exists_unique s hs := hz.exists_unique_line hs
  mem_of_mem_part r part hmem :=
    hz.mem_of_mem_part r part ((hz.mem_toList_iff r part).mp hmem)

end Stratification

/-! ## §6. Both tables. -/

/-- **The columns of the tables stand under each other.**  In the table of a
ranked model all headers have one length, with the colon at one position, and
all lines of valuations have one length, with each of the four braces at one
position.  Columns are at most as wide as a number of 16 bits can say if the
symbols have fewer than 65000 characters in all.  In the table of a
stratification the colon and the opening brace of all lines are at one
position, the lines are those of the finite ranks from 0 upwards and then that
of the infinite rank, and every conditional is in exactly one of them. -/
theorem tables_are_aligned :
    (∀ m : RankedModel, m.Aligned ∧
      ((m.alphabet.atoms.toList.map fun a => a.symbol.length).sum < 65000 →
        RankedModel.groupWidth m.alphabet < 2 ^ 16)) ∧
    ∀ (kb : KnowledgeBase) (t : Traced Stratification),
      kb.stratify = .ok t → t.value.Aligned kb := by
  constructor
  · intro m
    exact ⟨m.aligned, groupWidth_lt⟩
  · intro kb t ht
    have hz : t.value.Partitions kb :=
      (KnowledgeBase.sorts_of_stratifyFrom ht).partitions
        KnowledgeBase.keptBy_subset
        (KnowledgeBase.size_stratum_add_residue ht)
    exact hz.aligned

theorem tables_of_penguins_are_aligned :
    ∃ m t, penguins.minimalModel none = .ok m ∧ penguins.stratify = .ok t ∧
      m.value.labelWidth = 2 ∧ RankedModel.groupWidth m.value.alphabet = 5 ∧
      RankedModel.groupWidth m.value.alphabet < 2 ^ 16 ∧
      t.value.labelWidth = 2 ∧ m.value.Aligned ∧ t.value.Aligned penguins := by
  have hm : (penguins.minimalModel none).map (fun m =>
      (m.value.labelWidth, RankedModel.groupWidth m.value.alphabet,
        (m.value.alphabet.atoms.toList.map fun a => a.symbol.length).sum)) =
          .ok (2, 5, 3) := by
    decide +kernel
  have ht : penguins.stratify.map (fun t => t.value.labelWidth) = .ok 2 := by
    decide +kernel
  cases hmodel : penguins.minimalModel none with
  | error e => rw [hmodel] at hm; cases hm
  | ok m =>
      cases hsort : penguins.stratify with
      | error e => rw [hsort] at ht; cases ht
      | ok t =>
          rw [hmodel] at hm
          rw [hsort] at ht
          have hwidths := Except.ok.inj hm
          simp only [Prod.mk.injEq] at hwidths
          obtain ⟨hlabel, hgroup, hsymbols⟩ := hwidths
          obtain ⟨haligned, hwidth⟩ := tables_are_aligned.1 m.value
          exact ⟨m, t, rfl, rfl, hlabel, hgroup, hwidth (by omega),
            Except.ok.inj ht, haligned, tables_are_aligned.2 penguins t hsort⟩

end SystemZ
