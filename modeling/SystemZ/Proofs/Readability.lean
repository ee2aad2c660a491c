/-
  SystemZ.Proofs.Readability
  ──────────────────────────
  **THE PRINTED FORM IS UNAMBIGUOUS.**

  A symbol is plain when it is not empty and uses none of the marks that
  printing sets around symbols.  Then a literal has no blank and no
  parenthesis in it, so it ends where the first of them stands; a group ends
  at its own closing parenthesis; and only a negation begins with `¬(`.  So a
  text is spelled by one phrase at most, and formulas with one text have one
  meaning.

  Two words or phrases are compared together with what follows each of them.
  No parentheses need be counted then: inside a group the phrase is followed
  by the closing one.

  In the text of a conditional the bar marks the end of the antecedent; a text
  without a bar is the formula that a strict rule asserts.

  Main results:
    `Literal.eq_of_toList_text_eq`   literals by their texts
    `Phrase.eq_of_append_eq`         phrases by what they spell
    `Formula.holds_eq_of_text_eq`, `Conditional.holds_eq_of_text_eq`
    `texts_are_unambiguous`
-/
import SystemZ.Conditional
import SystemZ.Proofs.Negation
import SystemZ.Proofs.Phrases
import SystemZ.Valuation.Basic

namespace SystemZ

/-! ## §1. Plain symbols. -/

/-- The characters that printing sets around symbols, the two constants
included. -/
def marks : List Char :=
  [' ', '(', ')', '¬', '∧', '∨', '→', '⊤', '⊥', '|', '~']

/-- The symbol of the atom is not empty and has no mark in it.  Of white space
only the blank is a mark. -/
def Atom.IsPlain (a : Atom) : Prop :=
  a.symbol.toList ≠ [] ∧ ∀ c ∈ a.symbol.toList, c ∉ marks

-- Decided along the symbol, not by going through all characters there are.
instance (a : Atom) : Decidable a.IsPlain :=
  @instDecidableAnd _ _ inferInstance (List.decidableBAll _ _)

/-- A plain symbol does not begin with a mark. -/
theorem Atom.IsPlain.toList_ne_cons {a : Atom} (ha : a.IsPlain) {c : Char}
    (hc : c ∈ marks) (t : List Char) : a.symbol.toList ≠ c :: t := by
  intro h
  have hmem : c ∈ a.symbol.toList := h ▸ .head t
  exact ha.2 c hmem hc

/-- The atom of the literal is plain, unless the literal is a constant. -/
def Literal.IsPlain (l : Literal) : Prop :=
  l.isConstant = false → l.atom.IsPlain

namespace Literal

variable {k l : Literal}

theorem toList_text_positive (a : Atom) :
    (signed a true).text.toList = a.symbol.toList := rfl

theorem toList_text_negative (a : Atom) :
    (signed a false).text.toList = '¬' :: a.symbol.toList := by
  simp [text]

theorem toList_text_top : top.text.toList = ['⊤'] := by decide

theorem toList_text_bot : bot.text.toList = ['⊥'] := by decide

theorem toList_text_ne_nil (hl : l.IsPlain) : l.text.toList ≠ [] := by
  cases l with
  | signed a s =>
      cases s with
      | true => exact (hl rfl).1
      | false =>
          rw [toList_text_negative]
          exact List.cons_ne_nil _ _
  | top => decide
  | bot => decide

/-- Of the marks only the signs of negation and of the constants occur in a
literal. -/
theorem mem_of_mem_toList_text (hl : l.IsPlain) {c : Char}
    (hc : c ∈ l.text.toList) (hmark : c ∈ marks) :
    c ∈ ['¬', '⊤', '⊥'] := by
  cases l with
  | signed a s =>
      have hplain : c ∉ a.symbol.toList := fun hmem => (hl rfl).2 c hmem hmark
      cases s with
      | true => exact absurd hc hplain
      | false =>
          rw [toList_text_negative, List.mem_cons] at hc
          rw [hc.resolve_right hplain]
          decide
  | top =>
      rw [toList_text_top, List.mem_singleton] at hc
      subst hc
      decide
  | bot =>
      rw [toList_text_bot, List.mem_singleton] at hc
      subst hc
      decide

/-- The other marks do not occur. -/
theorem not_mem_toList_text (hl : l.IsPlain) {c : Char} (hmark : c ∈ marks)
    (hsign : c ∉ ['¬', '⊤', '⊥']) : c ∉ l.text.toList :=
  fun hmem => hsign (mem_of_mem_toList_text hl hmem hmark)

/-- No literal begins as a negated phrase does. -/
theorem toList_text_append_ne (hl : l.IsPlain) (s t : List Char) :
    l.text.toList ++ s ≠ '¬' :: '(' :: t := by
  intro h
  have hnot : '(' ∉ l.text.toList :=
    not_mem_toList_text hl (by decide) (by decide)
  cases l with
  | signed a sign =>
      have ha : a.IsPlain := hl rfl
      obtain ⟨c, rest, hsymbol⟩ := List.exists_cons_of_ne_nil ha.1
      cases sign with
      | true =>
          rw [toList_text_positive, hsymbol, List.cons_append,
            List.cons.injEq] at h
          rw [h.1] at hsymbol
          exact ha.toList_ne_cons (by decide) rest hsymbol
      | false =>
          rw [toList_text_negative, hsymbol] at h hnot
          simp only [List.cons_append, List.cons.injEq] at h
          simp [h.2.1] at hnot
  | top =>
      rw [toList_text_top, List.cons_append, List.cons.injEq] at h
      exact absurd h.1 (by decide)
  | bot =>
      rw [toList_text_bot, List.cons_append, List.cons.injEq] at h
      exact absurd h.1 (by decide)

/-- The literal that a text spells. -/
def ofChars : List Char → Literal
  | ['⊤'] => top
  | ['⊥'] => bot
  | '¬' :: cs => signed ⟨String.ofList cs⟩ false
  | cs => signed ⟨String.ofList cs⟩ true

theorem ofChars_toList_text (hl : l.IsPlain) :
    ofChars l.text.toList = l := by
  cases l with
  | signed a sign =>
      have ha : a.IsPlain := hl rfl
      cases sign with
      | true =>
          rw [toList_text_positive, ofChars.eq_def]
          split
          case h_1 h => exact absurd h (ha.toList_ne_cons (by decide) _)
          case h_2 h => exact absurd h (ha.toList_ne_cons (by decide) _)
          case h_3 h => exact absurd h (ha.toList_ne_cons (by decide) _)
          case h_4 => rw [String.ofList_toList]
      | false => rw [toList_text_negative, ofChars, String.ofList_toList]
  | top =>
      rw [toList_text_top]
      rfl
  | bot =>
      rw [toList_text_bot]
      rfl

/-- **Plain literals are known by their texts.** -/
theorem eq_of_toList_text_eq (hk : k.IsPlain) (hl : l.IsPlain)
    (h : k.text.toList = l.text.toList) : k = l := by
  rw [← ofChars_toList_text hk, h, ofChars_toList_text hl]

end Literal

mutual

/-- All literals of the word are plain. -/
def Word.IsPlain : Word → Prop
  | .literal l => l.IsPlain
  | .group p => p.IsPlain

/-- All literals of the phrase are plain. -/
def Phrase.IsPlain : Phrase → Prop
  | .word w => w.IsPlain
  | .negation p => p.IsPlain
  | .binary l _ r => l.IsPlain ∧ r.IsPlain

end

theorem Phrase.IsPlain.toWord {p : Phrase} (h : p.IsPlain) :
    p.toWord.IsPlain := by
  cases p <;> exact h

mutual

theorem Operand.isPlain_phrase : ∀ x : Operand,
    (∀ l ∈ x.occurrences, l.IsPlain) → x.phrase.IsPlain
  | .literal l, h => fun hl =>
      h l (by simp [Operand.occurrences, hl]) hl
  | .formula f, h => Formula.isPlain_phrase_of_occurrences f h

theorem Formula.isPlain_phrase_of_occurrences : ∀ f : Formula,
    (∀ l ∈ f.occurrences, l.IsPlain) → f.phrase.IsPlain
  | .single x, h => (Operand.isPlain_phrase x h).toWord
  | .node x c r, h => by
      have hx := Operand.isPlain_phrase x fun l hl =>
        h l (List.mem_append_left _ hl)
      have hr := Formula.isPlain_phrase_of_occurrences r fun l hl =>
        h l (List.mem_append_right _ hl)
      rw [Formula.phrase]
      split
      · exact hx
      · exact ⟨hx.toWord, hr.toWord⟩

end

/-- A formula with plain atoms shows a plain phrase. -/
theorem Formula.isPlain_phrase {f : Formula}
    (h : ∀ a ∈ f.atoms, a.IsPlain) : f.phrase.IsPlain :=
  f.isPlain_phrase_of_occurrences fun l hl _ =>
    h l.atom (Formula.mem_atoms.mpr ⟨l, hl, rfl⟩)

/-! ## §2. Words and phrases by what they spell. -/

/-- A list ends where the first of some marks stands, so it can be told from
what follows. -/
theorem eq_of_append_eq_of_stop {α : Type _} {stop : α → Prop}
    {xs ys s t : List α} (hxs : ∀ c ∈ xs, ¬ stop c) (hys : ∀ c ∈ ys, ¬ stop c)
    (hs : ∀ c ∈ s.head?, stop c) (ht : ∀ c ∈ t.head?, stop c)
    (h : xs ++ s = ys ++ t) : xs = ys ∧ s = t := by
  induction xs generalizing ys with
  | nil =>
      cases ys with
      | nil => exact ⟨rfl, h⟩
      | cons y ys =>
          rw [List.nil_append, List.cons_append] at h
          subst h
          exact absurd (hs y rfl) (hys y List.mem_cons_self)
  | cons x xs ih =>
      cases ys with
      | nil =>
          rw [List.nil_append, List.cons_append] at h
          subst h
          exact absurd (ht x rfl) (hxs x List.mem_cons_self)
      | cons y ys =>
          rw [List.cons_append, List.cons_append, List.cons.injEq] at h
          obtain ⟨hxy, hrest⟩ := h
          obtain ⟨hlist, hst⟩ := ih
            (fun c hc => hxs c (List.mem_cons_of_mem x hc))
            (fun c hc => hys c (List.mem_cons_of_mem y hc)) hrest
          exact ⟨by rw [hxy, hlist], hst⟩

/-- What follows ends a word: nothing, or a blank or closing parenthesis in
front. -/
def EndsWord (s : List Char) : Prop := ∀ c ∈ s.head?, c = ' ' ∨ c = ')'

/-- What follows ends a phrase: nothing, or a closing parenthesis in front. -/
def EndsPhrase (s : List Char) : Prop := ∀ c ∈ s.head?, c = ')'

theorem EndsPhrase.endsWord {s : List Char} (h : EndsPhrase s) : EndsWord s :=
  fun c hc => .inr (h c hc)

theorem endsPhrase_close (s : List Char) : EndsPhrase (')' :: s) := by
  simp [EndsPhrase]

theorem endsWord_blank (s : List Char) : EndsWord (' ' :: s) := by
  simp [EndsWord]

/-- A blank does not end a phrase. -/
theorem not_endsPhrase_blank (s : List Char) : ¬ EndsPhrase (' ' :: s) := by
  simp [EndsPhrase]

theorem Connective.eq_of_toList_text_append_eq {c d : Connective}
    {s t : List Char} (h : c.text.toList ++ s = d.text.toList ++ t) :
    c = d ∧ s = t := by
  cases c <;> cases d <;> simp_all [Connective.text]

variable {s t : List Char}

/-- No word begins as a negated phrase does. -/
theorem Word.chars_append_ne {w : Word} (hw : w.IsPlain) (s t : List Char) :
    w.chars ++ s ≠ '¬' :: '(' :: t := by
  cases w with
  | literal l => exact Literal.toList_text_append_ne hw s t
  | group p => simp [Word.chars]

/-- A literal does not begin as a group does. -/
theorem Literal.toList_text_append_ne_group {l : Literal} (hl : l.IsPlain)
    (s t : List Char) : l.text.toList ++ s ≠ '(' :: t := by
  intro h
  have hnot : '(' ∉ l.text.toList :=
    not_mem_toList_text hl (by decide) (by decide)
  obtain ⟨c, rest, htext⟩ := List.exists_cons_of_ne_nil (toList_text_ne_nil hl)
  rw [htext, List.cons_append, List.cons.injEq] at h
  rw [htext, h.1] at hnot
  exact hnot List.mem_cons_self

mutual

/-- **Words are known by what they spell**, whatever follows that ends a
word. -/
theorem Word.eq_of_append_eq : ∀ (w v : Word) (s t : List Char),
    w.IsPlain → v.IsPlain → EndsWord s → EndsWord t →
      w.chars ++ s = v.chars ++ t → w = v ∧ s = t
  | .literal k, .literal l, s, t, hw, hv, hs, ht, h => by
      have hstop : ∀ l : Literal, l.IsPlain → ∀ c ∈ l.text.toList,
          ¬ (c = ' ' ∨ c = ')') := by
        rintro l hl c hc (rfl | rfl)
        · exact Literal.not_mem_toList_text hl (by decide) (by decide) hc
        · exact Literal.not_mem_toList_text hl (by decide) (by decide) hc
      obtain ⟨htext, hst⟩ :=
        eq_of_append_eq_of_stop (hstop k hw) (hstop l hv) hs ht h
      exact ⟨by rw [Literal.eq_of_toList_text_eq hw hv htext], hst⟩
  | .literal k, .group q, s, t, hw, _, _, _, h =>
      absurd h (Literal.toList_text_append_ne_group hw s _)
  | .group p, .literal l, s, t, _, hv, _, _, h =>
      absurd h.symm (Literal.toList_text_append_ne_group hv t _)
  | .group p, .group q, s, t, hw, hv, _, _, h => by
      simp only [Word.chars, List.cons_append, List.append_assoc,
        List.nil_append, List.cons.injEq, true_and] at h
      obtain ⟨rfl, hst⟩ := Phrase.eq_of_append_eq p q _ _ hw hv
        (endsPhrase_close s) (endsPhrase_close t) h
      exact ⟨rfl, List.tail_eq_of_cons_eq hst⟩

/-- **Phrases are known by what they spell**, whatever follows that ends a
phrase. -/
theorem Phrase.eq_of_append_eq : ∀ (p q : Phrase) (s t : List Char),
    p.IsPlain → q.IsPlain → EndsPhrase s → EndsPhrase t →
      p.chars ++ s = q.chars ++ t → p = q ∧ s = t
  | .word w, .word v, s, t, hp, hq, hs, ht, h => by
      obtain ⟨rfl, hst⟩ :=
        Word.eq_of_append_eq w v s t hp hq hs.endsWord ht.endsWord h
      exact ⟨rfl, hst⟩
  | .word w, .negation q, s, t, hp, _, _, _, h =>
      absurd h (Word.chars_append_ne hp s _)
  | .negation p, .word v, s, t, _, hq, _, _, h =>
      absurd h.symm (Word.chars_append_ne hq t _)
  | .negation p, .negation q, s, t, hp, hq, _, _, h => by
      simp only [Phrase.chars, List.cons_append, List.append_assoc,
        List.nil_append, List.cons.injEq, true_and] at h
      obtain ⟨rfl, hst⟩ := Phrase.eq_of_append_eq p q _ _ hp hq
        (endsPhrase_close s) (endsPhrase_close t) h
      exact ⟨rfl, List.tail_eq_of_cons_eq hst⟩
  | .word w, .binary l c r, s, t, hp, hq, hs, _, h => by
      -- The word would be followed by the blank before the connective.
      simp only [Phrase.chars, List.cons_append, List.append_assoc] at h
      obtain ⟨_, hst⟩ := Word.eq_of_append_eq w l _ _ hp hq.1 hs.endsWord
        (endsWord_blank _) h
      exact absurd (hst ▸ hs) (not_endsPhrase_blank _)
  | .binary l c r, .word v, s, t, hp, hq, _, ht, h => by
      simp only [Phrase.chars, List.cons_append, List.append_assoc] at h
      obtain ⟨_, hst⟩ := Word.eq_of_append_eq l v _ _ hp.1 hq
        (endsWord_blank _) ht.endsWord h
      exact absurd (hst ▸ ht) (not_endsPhrase_blank _)
  | .negation p, .binary l c r, s, t, _, hq, _, _, h => by
      simp only [Phrase.chars, List.append_assoc] at h
      exact absurd h.symm (Word.chars_append_ne hq.1 _ _)
  | .binary l c r, .negation q, s, t, hp, _, _, _, h => by
      simp only [Phrase.chars, List.append_assoc] at h
      exact absurd h (Word.chars_append_ne hp.1 _ _)
  | .binary l c r, .binary l' c' r', s, t, hp, hq, hs, ht, h => by
      simp only [Phrase.chars, List.cons_append, List.append_assoc] at h
      obtain ⟨rfl, hrest⟩ := Word.eq_of_append_eq l l' _ _ hp.1 hq.1
        (endsWord_blank _) (endsWord_blank _) h
      obtain ⟨rfl, hright⟩ := Connective.eq_of_toList_text_append_eq
        (List.tail_eq_of_cons_eq hrest)
      obtain ⟨rfl, hst⟩ := Word.eq_of_append_eq r r' _ _ hp.2 hq.2
        hs.endsWord ht.endsWord (List.tail_eq_of_cons_eq hright)
      exact ⟨rfl, hst⟩

end

/-! ## §3. Formulas. -/

/-- **Formulas with one text have one phrase.** -/
theorem Formula.phrase_eq_of_text_eq {f g : Formula}
    (hf : ∀ a ∈ f.atoms, a.IsPlain) (hg : ∀ a ∈ g.atoms, a.IsPlain)
    (h : f.text = g.text) : f.phrase = g.phrase := by
  have hchars : f.phrase.chars ++ [] = g.phrase.chars ++ [] := by
    rw [← Formula.toList_text, ← Formula.toList_text, h]
  have hend : EndsPhrase [] := by simp [EndsPhrase]
  exact (Phrase.eq_of_append_eq f.phrase g.phrase [] []
    (Formula.isPlain_phrase hf) (Formula.isPlain_phrase hg) hend hend
    hchars).1

/-- So they have one meaning. -/
theorem Formula.holds_eq_of_text_eq {f g : Formula}
    (hf : ∀ a ∈ f.atoms, a.IsPlain) (hg : ∀ a ∈ g.atoms, a.IsPlain)
    (h : f.text = g.text) (value : Atom → Bool) :
    f.holds value = g.holds value := by
  rw [← Formula.holds_phrase, Formula.phrase_eq_of_text_eq hf hg h,
    Formula.holds_phrase]

/-! ## §4. Conditionals. -/

mutual

theorem Word.bar_not_mem_chars : ∀ w : Word, w.IsPlain → '|' ∉ w.chars
  | .literal _, h =>
      Literal.not_mem_toList_text h (by decide) (by decide)
  | .group p, h => by
      have hp := Phrase.bar_not_mem_chars p h
      simp [Word.chars, hp]

theorem Phrase.bar_not_mem_chars : ∀ p : Phrase, p.IsPlain → '|' ∉ p.chars
  | .word w, h => Word.bar_not_mem_chars w h
  | .negation p, h => by
      have hp := Phrase.bar_not_mem_chars p h
      simp [Phrase.chars, hp]
  | .binary l c r, h => by
      have hl := Word.bar_not_mem_chars l h.1
      have hr := Word.bar_not_mem_chars r h.2
      have hc : '|' ∉ c.text.toList := by cases c <;> decide
      simp [Phrase.chars, hl, hr, hc]

end

/-- No bar occurs in the text of a formula with plain atoms. -/
theorem Formula.bar_not_mem_text {f : Formula}
    (hf : ∀ a ∈ f.atoms, a.IsPlain) : '|' ∉ f.text.toList := by
  rw [f.toList_text]
  exact Phrase.bar_not_mem_chars f.phrase (Formula.isPlain_phrase hf)

theorem Formula.mem_atoms_of_left {x : Operand} {c : Connective} {r : Formula}
    {a : Atom} (h : a ∈ x.toFormula.atoms) : a ∈ (node x c r).atoms := by
  obtain ⟨l, hl, rfl⟩ := Formula.mem_atoms.mp h
  rw [Operand.occurrences_toFormula] at hl
  exact Formula.mem_atoms.mpr ⟨l, List.mem_append_left _ hl, rfl⟩

namespace Conditional

/-- The text of a conditional is the formula that a strict rule asserts, or
has the bar after its antecedent. -/
theorem text_cases (s : Conditional) :
    (∃ x, s = ⟨.node x .implies .bot, .bot⟩ ∧ s.text = x.toFormula.text) ∨
      s.text.toList = (s.antecedent.text.toList ++ [' ']) ++
        '|' :: '~' :: ' ' :: s.consequent.text.toList := by
  obtain ⟨antecedent, consequent⟩ := s
  by_cases hbare :
      (Conditional.mk antecedent consequent).isClassical &&
        antecedent.isExceptional
  case pos =>
    refine .inl ?_
    have hbot : consequent = .bot :=
      Formula.isBot_iff.mp (Bool.and_eq_true _ _ ▸ hbare).1
    cases antecedent with
    | single x => simp [Formula.isExceptional] at hbare
    | node x c r =>
        obtain ⟨rfl, rfl⟩ := Formula.isExceptional_node_iff.mp
          (Bool.and_eq_true _ _ ▸ hbare).2
        exact ⟨x, by rw [hbot], if_pos hbare⟩
  case neg =>
    refine .inr ?_
    rw [text, if_neg hbare]
    simp

/-- Plain atoms of a conditional are plain atoms of its sides. -/
theorem isPlain_sides {s : Conditional} (hs : ∀ a ∈ s.atoms, a.IsPlain) :
    (∀ a ∈ s.antecedent.atoms, a.IsPlain) ∧
      ∀ a ∈ s.consequent.atoms, a.IsPlain :=
  ⟨fun a ha => hs a (SortedSet.mem_union.mpr (.inl ha)),
    fun a ha => hs a (SortedSet.mem_union.mpr (.inr ha))⟩

/-- The formula that a strict rule asserts has no bar in its text. -/
theorem bar_not_mem_text {s : Conditional} {x : Operand}
    (hs : ∀ a ∈ s.atoms, a.IsPlain) (h : s = ⟨.node x .implies .bot, .bot⟩) :
    '|' ∉ x.toFormula.text.toList := by
  subst h
  exact Formula.bar_not_mem_text fun a ha =>
    (isPlain_sides hs).1 a (Formula.mem_atoms_of_left ha)

variable {s t : Conditional}

/-- **Conditionals with one text have sides of one meaning.** -/
theorem holds_eq_of_text_eq (hs : ∀ a ∈ s.atoms, a.IsPlain)
    (ht : ∀ a ∈ t.atoms, a.IsPlain) (h : s.text = t.text)
    (value : Atom → Bool) :
    s.antecedent.holds value = t.antecedent.holds value ∧
      s.consequent.holds value = t.consequent.holds value := by
  obtain ⟨hsA, hsC⟩ := isPlain_sides hs
  obtain ⟨htA, htC⟩ := isPlain_sides ht
  rcases s.text_cases with ⟨x, hx, hsx⟩ | hbar <;>
    rcases t.text_cases with ⟨y, hy, hty⟩ | hbar'
  case inl.inl =>
    subst hx hy
    have hxy := Formula.holds_eq_of_text_eq
      (fun a ha => hsA a (Formula.mem_atoms_of_left ha))
      (fun a ha => htA a (Formula.mem_atoms_of_left ha))
      (hsx.symm.trans (h.trans hty)) value
    rw [Operand.holds_toFormula, Operand.holds_toFormula] at hxy
    exact ⟨by rw [Formula.holds, hxy, Formula.holds], rfl⟩
  case inl.inr =>
    have hnot := bar_not_mem_text hs hx
    rw [← hsx, h, hbar'] at hnot
    simp at hnot
  case inr.inl =>
    have hnot := bar_not_mem_text ht hy
    rw [← hty, ← h, hbar] at hnot
    simp at hnot
  case inr.inr =>
    -- The antecedent ends before the first bar.
    have hstop : ∀ f : Formula, (∀ a ∈ f.atoms, a.IsPlain) →
        ∀ c ∈ f.text.toList ++ [' '], ¬ c = '|' := by
      rintro f hf c hc rfl
      rcases List.mem_append.mp hc with hc | hc
      · exact Formula.bar_not_mem_text hf hc
      · exact absurd hc (by decide)
    rw [h, hbar'] at hbar
    obtain ⟨hA, hC⟩ := eq_of_append_eq_of_stop (hstop _ htA) (hstop _ hsA)
      (by simp) (by simp) hbar
    simp only [List.append_cancel_right_eq, String.toList_inj,
      List.cons.injEq, true_and] at hA hC
    exact ⟨(Formula.holds_eq_of_text_eq htA hsA hA value).symm,
      (Formula.holds_eq_of_text_eq htC hsC hC value).symm⟩

end Conditional

/-! ## §5. The printed form. -/

/-- **The printed form is unambiguous.**  Over plain symbols, formulas with
one text are true in the same valuations, and so are the antecedents, and the
consequents, of conditionals with one text. -/
theorem texts_are_unambiguous :
    (∀ f g : Formula, (∀ a ∈ f.atoms, a.IsPlain) →
        (∀ a ∈ g.atoms, a.IsPlain) → f.text = g.text →
        ∀ v : Valuation, v.satisfies f = v.satisfies g) ∧
      ∀ s t : Conditional, (∀ a ∈ s.atoms, a.IsPlain) →
        (∀ a ∈ t.atoms, a.IsPlain) → s.text = t.text →
        ∀ v : Valuation,
          v.satisfies s.antecedent = v.satisfies t.antecedent ∧
            v.satisfies s.consequent = v.satisfies t.consequent :=
  ⟨fun _ _ hf hg h v => Formula.holds_eq_of_text_eq hf hg h v.value,
    fun _ _ hs ht h v => Conditional.holds_eq_of_text_eq hs ht h v.value⟩

/-- The rule that penguins are birds. -/
def birdRule : Formula :=
  .imp (.literal (.positive ⟨"p"⟩)) (.literal (.positive ⟨"b"⟩))

/-- The same rule with a literal as its left child, where `imp` puts a formula
without connective. -/
def flatBirdRule : Formula :=
  .node (.literal (.positive ⟨"p"⟩)) .implies (.leaf (.positive ⟨"b"⟩))

theorem texts_of_bird_rules_agree :
    birdRule ≠ flatBirdRule ∧
      (∀ a ∈ birdRule.atoms, a.IsPlain) ∧
      (∀ a ∈ flatBirdRule.atoms, a.IsPlain) ∧
      birdRule.text = "p → b" ∧ flatBirdRule.text = "p → b" ∧
      (∀ v : Valuation, v.satisfies birdRule = v.satisfies flatBirdRule) ∧
      (Conditional.classical (.formula birdRule)).text = "p → b" ∧
      (Conditional.classical (.formula flatBirdRule)).text = "p → b" ∧
      ∀ v : Valuation,
        v.satisfies (Conditional.classical (.formula birdRule)).antecedent =
          v.satisfies
            (Conditional.classical (.formula flatBirdRule)).antecedent := by
  have hplain : ∀ a ∈ birdRule.atoms.toList, a.IsPlain := by decide
  have hflat : ∀ a ∈ flatBirdRule.atoms.toList, a.IsPlain := by decide
  have hrule : ∀ a ∈ (Conditional.classical (.formula birdRule)).atoms.toList,
      a.IsPlain := by decide
  have hrule' :
      ∀ a ∈ (Conditional.classical (.formula flatBirdRule)).atoms.toList,
        a.IsPlain := by decide
  have htext : birdRule.text = "p → b" := by decide
  have htext' : flatBirdRule.text = "p → b" := by decide
  have hasserted :
      (Conditional.classical (.formula birdRule)).text = "p → b" := by decide
  have hasserted' :
      (Conditional.classical (.formula flatBirdRule)).text = "p → b" := by
    decide
  obtain ⟨hformulas, hconditionals⟩ := texts_are_unambiguous
  refine ⟨by decide, hplain, hflat, htext, htext', ?_, hasserted,
    hasserted', ?_⟩
  · exact hformulas _ _ hplain hflat (htext.trans htext'.symm)
  · intro v
    exact (hconditionals _ _ hrule hrule' (hasserted.trans hasserted'.symm)
      v).1

end SystemZ
