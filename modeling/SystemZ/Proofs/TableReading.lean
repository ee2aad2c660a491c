/-
  SystemZ.Proofs.TableReading
  ───────────────────────────
  **THE TABLE OF A RANKED MODEL CAN BE READ BACK.**

  This holds if the symbols are clear, that is, if none is empty or has a
  blank, a line break or a brace in it.  The text falls into lines at the line
  breaks; the lines fall into sections at those without a brace; and a group
  of atoms falls into its symbols at the blanks, up to the closing brace.
  These are three cases of one argument: blocks that can each be told from
  what follows make up a text in one way only.

  How wide the columns are plays no part in this, so nothing is asked of the
  alphabets beforehand.  That they are the same is read off the first line.

  Main results:
    `Readable.eq_of_append_eq`   blocks make up a text in one way
    `eq_of_header_eq`            a header shows its rank
    `atoms_eq_of_line_eq`        a line shows its valuation
    `RankedModel.eq_of_table_eq`
-/
import SystemZ.Proofs.Alignment
import SystemZ.Proofs.Readability
import SystemZ.Proofs.UsedRanks

namespace SystemZ

/-! ## §1. Blocks that can be told from what follows. -/

/-- Blocks that can each be told from what follows: `rest` is what may follow
a block, and `last` what may follow the last one. -/
structure Readable {α β : Type} (block : α → List β) (good : α → Prop)
    (rest last : List β → Prop) : Prop where
  rest_block : ∀ a s, good a → rest s → rest (block a ++ s)
  rest_of_last : ∀ s, last s → rest s
  cancel : ∀ a b s t, good a → good b → rest s → rest t →
    block a ++ s = block b ++ t → a = b ∧ s = t
  ne_last : ∀ a s t, good a → rest s → last t → block a ++ s ≠ t

namespace Readable

variable {α β : Type} {block : α → List β} {good : α → Prop}
  {rest last : List β → Prop} {A B : List α} {s t : List β}

theorem rest_flatMap (h : Readable block good rest last)
    (hA : ∀ a ∈ A, good a) (hs : last s) : rest (A.flatMap block ++ s) := by
  induction A with
  | nil => exact h.rest_of_last s hs
  | cons a A ih =>
      rw [List.flatMap_cons, List.append_assoc]
      exact h.rest_block a _ (hA a List.mem_cons_self)
        (ih fun b hb => hA b (List.mem_cons_of_mem a hb))

/-- **Such blocks make up a text in one way only.** -/
theorem eq_of_append_eq (h : Readable block good rest last)
    (hA : ∀ a ∈ A, good a) (hB : ∀ b ∈ B, good b) (hs : last s) (ht : last t)
    (heq : A.flatMap block ++ s = B.flatMap block ++ t) :
    A = B ∧ s = t := by
  -- Both texts lose a block at a time, until both are at their end.
  induction A generalizing B with
  | nil =>
      cases B with
      | nil => exact ⟨rfl, heq⟩
      | cons b B =>
          obtain ⟨hb, hB⟩ := List.forall_mem_cons.mp hB
          rw [List.flatMap_cons, List.append_assoc] at heq
          exact absurd heq.symm (h.ne_last b _ s hb (h.rest_flatMap hB ht) hs)
  | cons a A ih =>
      obtain ⟨ha, hA⟩ := List.forall_mem_cons.mp hA
      rw [List.flatMap_cons, List.append_assoc] at heq
      cases B with
      | nil => exact absurd heq (h.ne_last a _ t ha (h.rest_flatMap hA hs) ht)
      | cons b B =>
          obtain ⟨hb, hB⟩ := List.forall_mem_cons.mp hB
          rw [List.flatMap_cons, List.append_assoc] at heq
          obtain ⟨hab, hrest⟩ := h.cancel a b _ _ ha hb
            (h.rest_flatMap hA hs) (h.rest_flatMap hB ht) heq
          obtain ⟨hAB, hst⟩ := ih hA hB hrest
          exact ⟨by rw [hab, hAB], hst⟩

end Readable

/-- What stands behind blanks can be told, however many there are. -/
theorem eq_of_blanks_append_eq {i j : Nat} {s t : List Char}
    (hs : ∀ c ∈ s.head?, c ≠ ' ') (ht : ∀ c ∈ t.head?, c ≠ ' ')
    (h : List.replicate i ' ' ++ s = List.replicate j ' ' ++ t) : s = t := by
  have hblanks : ∀ (k : Nat), ∀ c ∈ List.replicate k ' ', ¬ c ≠ ' ' := by
    intro k c hc
    exact not_not_intro (List.eq_of_mem_replicate hc)
  exact (eq_of_append_eq_of_stop (hblanks i) (hblanks j) hs ht h).2

/-- A text that ends at its only line break. -/
def IsLine (text : String) : Prop :=
  ∃ w, text.toList = w ++ ['\n'] ∧ '\n' ∉ w

/-- **A text falls into its lines.** -/
theorem readable_lines :
    Readable String.toList IsLine (fun _ => True) (fun s => s = []) where
  rest_block _ _ _ _ := trivial
  rest_of_last _ _ := trivial
  cancel a b s t ha hb _ _ h := by
    obtain ⟨w, haw, hw⟩ := ha
    obtain ⟨x, hbx, hx⟩ := hb
    rw [haw, hbx, List.append_assoc, List.append_assoc] at h
    have hstop : ∀ {u : List Char}, '\n' ∉ u → ∀ c ∈ u, ¬ c = '\n' := by
      intro u hu c hc hbreak
      exact hu (hbreak ▸ hc)
    obtain ⟨hwx, hst⟩ :=
      eq_of_append_eq_of_stop (hstop hw) (hstop hx) (by simp) (by simp) h
    refine ⟨?_, List.append_cancel_left hst⟩
    rw [← String.toList_inj, haw, hbx, hwx]
  ne_last a s t ha _ ht h := by
    obtain ⟨w, haw, _⟩ := ha
    rw [haw, ht] at h
    simp at h

/-- **Lines fall into sections**, at the lines without a brace. -/
theorem readable_sections :
    Readable (fun x : String × List String => x.1 :: x.2)
      (fun x => '\x7b' ∉ x.1.toList ∧ ∀ text ∈ x.2, '\x7b' ∈ text.toList)
      (fun s => ∀ text ∈ s.head?, '\x7b' ∉ text.toList)
      (fun s => s = []) where
  rest_block x s hx _ := by
    intro text htext
    cases htext
    exact hx.1
  rest_of_last s hs := by
    rw [hs]
    intro text htext
    cases htext
  cancel x y s t hx hy hs ht h := by
    rw [List.cons_append, List.cons_append, List.cons.injEq] at h
    obtain ⟨hhead, hitems⟩ := h
    -- The lines under a header end where the next one without a brace is.
    have hstop : ∀ {l : List String}, (∀ text ∈ l, '\x7b' ∈ text.toList) →
        ∀ text ∈ l, ¬ '\x7b' ∉ text.toList := by
      intro l hl text htext
      exact not_not_intro (hl text htext)
    obtain ⟨hlist, hst⟩ :=
      eq_of_append_eq_of_stop (hstop hx.2) (hstop hy.2) hs ht hitems
    exact ⟨Prod.ext hhead hlist, hst⟩
  ne_last x s t _ _ ht h := by
    rw [ht] at h
    cases h

/-! ## §2. Groups of atoms. -/

/-- A symbol that can be found again in a line: it is not empty, and there is
no blank, line break or brace in it. -/
def Atom.IsClear (a : Atom) : Prop :=
  a.symbol ≠ "" ∧
    ∀ c ∈ a.symbol.toList, c ∉ [' ', '\n', '\x7b', '\x7d']

-- Decided along the symbol, not by going through all characters there are.
instance (a : Atom) : Decidable a.IsClear :=
  @instDecidableAnd _ _ inferInstance (List.decidableBAll _ _)

/-- A symbol with a blank before it. -/
def spaced (a : Atom) : List Char := ' ' :: a.symbol.toList

/-- **A group falls into its symbols**, up to the closing brace. -/
theorem readable_symbols :
    Readable spaced Atom.IsClear (fun s => s.head? = some ' ')
      (fun s => ∃ k t, s = List.replicate (k + 1) ' ' ++ '\x7d' :: t) where
  rest_block _ _ _ _ := rfl
  rest_of_last s hs := by
    obtain ⟨k, t, rfl⟩ := hs
    rfl
  cancel a b s t ha hb hs ht h := by
    have hclear : ∀ {a : Atom}, a.IsClear → ∀ c ∈ a.symbol.toList,
        ¬ c = ' ' := by
      intro a ha c hc hblank
      exact ha.2 c hc (by rw [hblank]; decide)
    obtain ⟨hsymbol, hst⟩ := eq_of_append_eq_of_stop (hclear ha) (hclear hb)
      (by simp [hs]) (by simp [ht]) (List.cons.inj h).2
    refine ⟨?_, hst⟩
    cases a
    cases b
    exact congrArg Atom.mk (String.toList_inj.mp hsymbol)
  ne_last a s t ha _ ht h := by
    obtain ⟨k, t, rfl⟩ := ht
    -- The second character is that of a symbol, or else a blank or a brace.
    cases hsymbol : a.symbol.toList with
    | nil => exact ha.1 (String.toList_eq_nil_iff.mp hsymbol)
    | cons c cs =>
        have hc := ha.2 c (by rw [hsymbol]; exact List.mem_cons_self)
        rw [spaced, hsymbol, List.replicate_succ] at h
        obtain ⟨_, h⟩ := List.cons.inj h
        cases k with
        | zero =>
            obtain ⟨hbrace, _⟩ := List.cons.inj h
            exact hc (by rw [hbrace]; decide)
        | succ k =>
            obtain ⟨hblank, _⟩ := List.cons.inj h
            exact hc (by rw [hblank]; decide)

/-- The symbols of some atoms, with a blank before each. -/
theorem cons_toList_symbolsText {l : List Atom} (hl : l ≠ []) :
    ' ' :: (Valuation.symbolsText l).toList = l.flatMap spaced := by
  unfold Valuation.symbolsText
  induction l with
  | nil => exact absurd rfl hl
  | cons a as ih =>
      cases as with
      | nil => simp [spaced]
      | cons b bs =>
          rw [List.map_cons, List.map_cons, String.intercalate_cons_cons,
            ← List.map_cons, List.flatMap_cons, ← ih (by simp)]
          simp [spaced]

/-- A group in its column, up to the closing brace. -/
theorem exists_toList_group (width : Nat) (l : List Atom) (s : List Char) :
    ∃ k, ' ' :: ((alignLeft width (Valuation.symbolsText l)).toList ++
      ' ' :: '\x7d' :: s) =
        l.flatMap spaced ++ (List.replicate (k + 1) ' ' ++ '\x7d' :: s) := by
  rw [toList_alignLeft]
  generalize width - (Valuation.symbolsText l).length = k
  cases l with
  | nil =>
      refine ⟨k + 1, ?_⟩
      rw [List.replicate_succ, List.replicate_succ']
      simp [Valuation.symbolsText]
  | cons a as =>
      refine ⟨k, ?_⟩
      rw [← cons_toList_symbolsText (List.cons_ne_nil a as)]
      simp [List.replicate_succ']

/-- **A group shows its atoms**, however wide its column is. -/
theorem eq_of_group_append_eq {width width' : Nat} {l l' : List Atom}
    {s t : List Char} (hl : ∀ a ∈ l, a.IsClear) (hl' : ∀ a ∈ l', a.IsClear)
    (h : (alignLeft width (Valuation.symbolsText l)).toList ++
        ' ' :: '\x7d' :: s =
      (alignLeft width' (Valuation.symbolsText l')).toList ++
        ' ' :: '\x7d' :: t) : l = l' ∧ s = t := by
  -- With a blank in front the first symbol is like the others.
  obtain ⟨k, hk⟩ := exists_toList_group width l s
  obtain ⟨k', hk'⟩ := exists_toList_group width' l' t
  rw [h, hk'] at hk
  obtain ⟨hll', hrest⟩ := readable_symbols.eq_of_append_eq hl' hl
    ⟨k', t, rfl⟩ ⟨k, s, rfl⟩ hk
  have hst := eq_of_blanks_append_eq (by simp) (by simp) hrest
  exact ⟨hll'.symm, (List.cons.inj hst).2.symm⟩

/-- There is nothing but blanks between symbols and behind them. -/
theorem mem_toList_group {width : Nat} {l : List Atom} {c : Char}
    (hc : c ∈ (alignLeft width (Valuation.symbolsText l)).toList) :
    c = ' ' ∨ ∃ a ∈ l, c ∈ a.symbol.toList := by
  rw [toList_alignLeft, List.mem_append] at hc
  rcases hc with hc | hc
  · cases l with
    | nil => cases hc
    | cons a as =>
        have hmem : c ∈ (a :: as).flatMap spaced := by
          rw [← cons_toList_symbolsText (List.cons_ne_nil a as)]
          exact List.mem_cons_of_mem _ hc
        obtain ⟨b, hb, hcb⟩ := List.mem_flatMap.mp hmem
        rcases List.mem_cons.mp hcb with hblank | hcb
        · exact .inl hblank
        · exact .inr ⟨b, hb, hcb⟩
  · exact .inl (List.eq_of_mem_replicate hc)

/-! ## §3. Headers and lines. -/

theorem Rank.text_finite_ne_infinite (n : Nat) :
    (Rank.finite n).text ≠ Rank.infinite.text := by
  intro h
  have hmem : '∞' ∈ (Rank.finite n).text.toList := by
    rw [h]
    decide
  cases isDigit_of_mem_text hmem

/-- **A rank is known by its text.** -/
theorem Rank.text_injective : Function.Injective Rank.text := by
  intro q r h
  cases q with
  | finite i =>
      cases r with
      | finite j =>
          have hdigits : Nat.toDigits 10 i = Nat.toDigits 10 j := by
            rw [← Nat.toList_repr, ← Nat.toList_repr]
            exact congrArg String.toList h
          rw [← Nat.ofDigitChars_ten_toDigits (n := i), hdigits,
            Nat.ofDigitChars_ten_toDigits]
      | infinite => exact absurd h (text_finite_ne_infinite i)
  | infinite =>
      cases r with
      | finite j => exact absurd h.symm (text_finite_ne_infinite j)
      | infinite => rfl

/-- The symbols of the alphabet are clear. -/
def Alphabet.IsClear (α : Alphabet) : Prop := ∀ a ∈ α.atoms, a.IsClear

instance (α : Alphabet) : Decidable α.IsClear :=
  List.decidableBAll Atom.IsClear α.atoms.toList

theorem Alphabet.IsClear.trueAtoms {v : Valuation}
    (h : v.alphabet.IsClear) : ∀ a ∈ v.trueAtoms, a.IsClear := by
  intro a ha
  exact h a (v.trueAtoms_sublist.subset ha)

theorem Alphabet.IsClear.falseAtoms {v : Valuation}
    (h : v.alphabet.IsClear) : ∀ a ∈ v.falseAtoms, a.IsClear := by
  intro a ha
  exact h a (v.falseAtoms_sublist.subset ha)

namespace RankedModel

variable {m n : RankedModel} {q r : Rank} {u v : Valuation}

theorem toList_header (m : RankedModel) (r : Rank) :
    (m.header r).toList =
      List.replicate (m.labelWidth - r.label.length) ' ' ++
        (r.text.toList ++ ": --------\n".toList) := by
  simp [header, toList_alignRight_label]

/-- **A header shows its rank**, however wide its column is. -/
theorem eq_of_header_eq (h : m.header q = n.header r) : q = r := by
  have hlist := congrArg String.toList h
  rw [toList_header, toList_header] at hlist
  -- Behind the blanks there is a digit, or the sign of infinity.
  have hhead : ∀ r : Rank, ∀ c ∈ (r.text.toList ++
      ": --------\n".toList).head?, c ≠ ' ' := by
    intro r c hc hblank
    subst hblank
    have hnot : ' ' ∉ r.text.toList :=
      Rank.not_mem_text (by decide) (by decide)
    cases htext : r.text.toList with
    | nil => rw [htext] at hc; cases hc
    | cons d ds =>
        rw [htext] at hc hnot
        cases hc
        exact hnot List.mem_cons_self
  have hrest := eq_of_blanks_append_eq (hhead q) (hhead r) hlist
  exact Rank.text_injective
    (String.toList_inj.mp (List.append_cancel_right hrest))

theorem brace_not_mem_header (m : RankedModel) (r : Rank) :
    '\x7b' ∉ (m.header r).toList := by
  rw [toList_header, ← List.append_assoc, List.mem_append]
  simp only [not_or]
  exact ⟨not_mem_blanks_append_text _ r (by decide) (by decide) (by decide),
    by decide⟩

theorem isLine_header (m : RankedModel) (r : Rank) :
    IsLine (m.header r) := by
  have hend : ": --------\n".toList = ": --------".toList ++ ['\n'] := by
    decide
  refine ⟨List.replicate (m.labelWidth - r.label.length) ' ' ++
    r.text.toList ++ ": --------".toList, ?_, ?_⟩
  · rw [toList_header, hend]
    simp only [List.append_assoc]
  · rw [List.mem_append]
    simp only [not_or]
    exact ⟨not_mem_blanks_append_text _ r (by decide) (by decide)
      (by decide), by decide⟩

theorem brace_mem_line (m : RankedModel) (v : Valuation) :
    '\x7b' ∈ (m.line v).toList := by
  rw [m.aligned.line_eq, toList_template]
  simp

/-- A group of clear symbols has no line break. -/
theorem isLine_line (hv : v.alphabet.IsClear) : IsLine (m.line v) := by
  have hgroup : ∀ l : List Atom, (∀ a ∈ l, a.IsClear) →
      '\n' ∉ (alignLeft (groupWidth m.alphabet)
        (Valuation.symbolsText l)).toList := by
    intro l hl hmem
    rcases mem_toList_group hmem with hblank | hsymbol
    · cases hblank
    · obtain ⟨a, ha, hca⟩ := hsymbol
      exact (hl a ha).2 _ hca (by decide)
  have hleft := hgroup _ hv.trueAtoms
  have hright := hgroup _ hv.falseAtoms
  rw [IsLine, m.aligned.line_eq, toList_template]
  -- Only this is needed of the two groups from here on.
  generalize (alignLeft (groupWidth m.alphabet)
    (Valuation.symbolsText v.trueAtoms)).toList = left at hleft
  generalize (alignLeft (groupWidth m.alphabet)
    (Valuation.symbolsText v.falseAtoms)).toList = right at hright
  refine ⟨List.replicate (m.labelWidth + 2) ' ' ++ '\x7b' :: ' ' :: (left ++
    ' ' :: '\x7d' :: ' ' :: '\x7b' :: ' ' :: (right ++ [' ', '\x7d'])),
    by simp, ?_⟩
  simp [hleft, hright]

/-- **A line shows the true atoms and the false atoms of its valuation**,
however wide its columns are. -/
theorem atoms_eq_of_line_eq (hu : u.alphabet.IsClear)
    (hv : v.alphabet.IsClear) (h : m.line u = n.line v) :
    u.trueAtoms = v.trueAtoms ∧ u.falseAtoms = v.falseAtoms := by
  rw [m.aligned.line_eq, n.aligned.line_eq, ← String.toList_inj,
    toList_template, toList_template] at h
  have hgroups := eq_of_blanks_append_eq (by simp) (by simp) h
  simp only [List.cons.injEq, true_and] at hgroups
  obtain ⟨htrue, hrest⟩ :=
    eq_of_group_append_eq hu.trueAtoms hv.trueAtoms hgroups
  simp only [List.cons.injEq, true_and] at hrest
  obtain ⟨hfalse, _⟩ :=
    eq_of_group_append_eq hu.falseAtoms hv.falseAtoms hrest
  exact ⟨htrue, hfalse⟩

end RankedModel

/-! ## §4. Reading a table back. -/

/-- **Valuations with the same true atoms and the same false atoms are
equal**; every atom of the alphabet is one of these. -/
theorem Valuation.beq_of_atoms_eq {u v : Valuation}
    (htrue : u.trueAtoms = v.trueAtoms) (hfalse : u.falseAtoms = v.falseAtoms) :
    (u == v) = true := by
  have hmem : ∀ (w : Valuation) (a : Atom),
      a ∈ w.alphabet.atoms ↔ a ∈ w.trueAtoms ∨ a ∈ w.falseAtoms := by
    intro w a
    rw [mem_trueAtoms, mem_falseAtoms]
    cases hvalue : w.value a with
    | true => simp [mem_of_value hvalue]
    | false => simp
  refine beq_iff_value.mpr ⟨?_, ?_⟩
  · have hatoms : u.alphabet.atoms = v.alphabet.atoms := by
      apply SortedSet.ext
      intro a
      rw [hmem, hmem, htrue, hfalse]
    cases hu : u.alphabet
    cases hv : v.alphabet
    rw [hu, hv] at hatoms
    cases hatoms
    rfl
  · intro a
    rw [Bool.eq_iff_iff, ← mem_trueAtoms, ← mem_trueAtoms, htrue]

namespace RankedModel

variable {m n : RankedModel} {r : Rank} {v : Valuation}

/-- No rank that is given is missing. -/
theorem mem_ranksInUse_of_mem_usedRanks (h : r ∈ m.usedRanks) :
    r ∈ m.ranksInUse := by
  cases r with
  | finite i =>
      rw [finite_mem_ranksInUse_iff]
      cases htop : m.maxFinite? with
      | none => exact absurd h (maxFinite?_eq_none_iff.mp htop i)
      | some top => exact ⟨top, rfl, (maxFinite?_eq_some_iff.mp htop).2 h⟩
  | infinite => exact infinite_mem_ranksInUse_iff.mpr (hasInfinite_iff.mpr h)

/-- Each header with the lines under it. -/
def sections (m : RankedModel) : List (String × List String) :=
  m.ranksInUse.map fun r => (m.header r, (m.valuationsOfRank r).map m.line)

theorem lines_eq_flatMap_sections (m : RankedModel) :
    m.lines = m.sections.flatMap fun x => x.1 :: x.2 := by
  rw [sections, List.flatMap_map]
  rfl

theorem isLine_of_mem_lines (hm : m.alphabet.IsClear) {text : String}
    (h : text ∈ m.lines) : IsLine text := by
  obtain ⟨r, _, hr | ⟨v, hv, hline⟩⟩ := (m.aligned.mem_lines_iff text).mp h
  · rw [hr]
    exact isLine_header m r
  · rw [hline]
    exact isLine_line (alphabet_of_mem_valuationsOfRank hv ▸ hm)

/-- Tables with the same text have the same sections. -/
theorem sections_eq_of_table_eq (hm : m.alphabet.IsClear)
    (hn : n.alphabet.IsClear) (h : m.table = n.table) :
    m.sections = n.sections := by
  -- First the lines are read off the text, then the sections off the lines.
  have htext := congrArg String.toList h
  rw [table, table, String.toList_join, String.toList_join] at htext
  have hlines : m.lines = n.lines :=
    (readable_lines.eq_of_append_eq (fun _ => isLine_of_mem_lines hm)
      (fun _ => isLine_of_mem_lines hn) rfl rfl
      (congrArg (· ++ []) htext)).1
  have hgood : ∀ (k : RankedModel), ∀ x ∈ k.sections,
      '\x7b' ∉ x.1.toList ∧ ∀ text ∈ x.2, '\x7b' ∈ text.toList := by
    intro k x hx
    obtain ⟨r, _, rfl⟩ := List.mem_map.mp hx
    refine ⟨brace_not_mem_header k r, ?_⟩
    intro text htext
    obtain ⟨v, _, rfl⟩ := List.mem_map.mp htext
    exact brace_mem_line k v
  rw [lines_eq_flatMap_sections, lines_eq_flatMap_sections] at hlines
  exact (readable_sections.eq_of_append_eq (hgood m) (hgood n) rfl rfl
    (congrArg (· ++ []) hlines)).1

/-- A valuation of one of the tables equals one that stands under the same
rank in the other. -/
theorem exists_beq_of_sections_eq (hm : m.alphabet.IsClear)
    (hn : n.alphabet.IsClear) (h : m.sections = n.sections)
    (hr : r ∈ m.ranksInUse) (hv : v ∈ m.valuationsOfRank r) :
    ∃ u ∈ n.valuationsOfRank r, (v == u) = true := by
  have hmem : (m.header r, (m.valuationsOfRank r).map m.line) ∈ n.sections := by
    rw [← h]
    exact List.mem_map.mpr ⟨r, hr, rfl⟩
  obtain ⟨q, _, hq⟩ := List.mem_map.mp hmem
  rw [Prod.mk.injEq] at hq
  obtain ⟨hheader, hlines⟩ := hq
  rw [eq_of_header_eq hheader] at hlines
  have hline : m.line v ∈ (n.valuationsOfRank r).map n.line := by
    rw [hlines]
    exact List.mem_map.mpr ⟨v, hv, rfl⟩
  obtain ⟨u, hu, hlineu⟩ := List.mem_map.mp hline
  obtain ⟨htrue, hfalse⟩ := atoms_eq_of_line_eq
    (alphabet_of_mem_valuationsOfRank hv ▸ hm)
    (alphabet_of_mem_valuationsOfRank hu ▸ hn) hlineu.symm
  exact ⟨u, hu, Valuation.beq_of_atoms_eq htrue hfalse⟩

/-- **A table can be read back**: models with clear symbols whose tables are
the same text are equal. -/
theorem eq_of_table_eq (hm : m.alphabet.IsClear) (hn : n.alphabet.IsClear)
    (h : m.table = n.table) : m = n := by
  have hsections := sections_eq_of_table_eq hm hn h
  -- Every listed valuation has its rank in the other model, too.
  have hranks : ∀ v ∈ (m.alphabet.valuations true).rest,
      m.alphabet = n.alphabet ∧ m.rank? v = n.rank? v := by
    intro v hv
    have hα : v.alphabet = m.alphabet := Valuations.alphabet_of_mem_rest hv
    cases hr : m.rank? v with
    | none => exact absurd hα (rank?_eq_none_iff.mp hr)
    | some r =>
        have hlisted : v ∈ m.valuationsOfRank r :=
          mem_valuationsOfRank.mpr (mem_entries.mpr ⟨hv, hr⟩)
        obtain ⟨u, hu, hbeq⟩ := exists_beq_of_sections_eq hm hn hsections
          (mem_ranksInUse_of_mem_usedRanks ⟨v, hα, hr⟩) hlisted
        have hru : n.rank? u = some r :=
          (mem_entries.mp (mem_valuationsOfRank.mp hu)).2
        refine ⟨?_, by rw [rank?_congr hbeq, hru]⟩
        rw [← hα, (Valuation.beq_iff.mp hbeq).2,
          alphabet_of_mem_valuationsOfRank hu]
  -- Even the empty alphabet has a valuation, so there is a line to look at.
  have hone : 0 < (m.alphabet.valuations true).rest.length := by
    rw [Valuations.length_rest_valuations, Nat.one_shiftLeft]
    exact Nat.two_pow_pos _
  have hα : m.alphabet = n.alphabet :=
    (hranks _ (List.getElem_mem hone)).1
  exact ext_of_rank? hα fun v hv => (hranks v hv).2

end RankedModel

end SystemZ
