/-
  SystemZ.Proofs.Phrases
  ──────────────────────
  **WHAT THE PRINTED FORM SHOWS OF A FORMULA.**

  Printing hides some of a tree: a root without connective prints as its
  operand does, and `F → ⊥` prints as a negation.  What is left to see is a
  phrase.  Next to a connective stands a word, which is a literal or a phrase
  in parentheses; and a phrase is a word, a negation or two words with a
  connective between them.

  The text of a formula is spelled by its phrase, and the phrase has the
  meaning of the formula.  So whatever two formulas with one phrase hide, they
  mean the same.

  Main results:
    `Formula.toList_text`    the text is the spelling of the phrase
    `Formula.holds_phrase`   the phrase has the meaning of the formula
-/
import SystemZ.Formula.Text

namespace SystemZ

/-! ## §1. Words and phrases. -/

mutual

/-- What can stand next to a connective. -/
inductive Word where
  | literal (l : Literal)
  /-- A phrase in parentheses. -/
  | group (p : Phrase)

/-- What a printed formula shows. -/
inductive Phrase where
  | word (w : Word)
  | negation (p : Phrase)
  | binary (left : Word) (connective : Connective) (right : Word)

end

mutual

/-- The characters of a word. -/
def Word.chars : Word → List Char
  | .literal l => l.text.toList
  | .group p => '(' :: (p.chars ++ [')'])

/-- The characters of a phrase. -/
def Phrase.chars : Phrase → List Char
  | .word w => w.chars
  | .negation p => '¬' :: '(' :: (p.chars ++ [')'])
  | .binary l c r => l.chars ++ ' ' :: (c.text.toList ++ ' ' :: r.chars)

end

mutual

/-- The truth value of a word, given those of the atoms. -/
def Word.holds (value : Atom → Bool) : Word → Bool
  | .literal l => l.holds value
  | .group p => p.holds value

/-- The truth value of a phrase, given those of the atoms. -/
def Phrase.holds (value : Atom → Bool) : Phrase → Bool
  | .word w => w.holds value
  | .negation p => !p.holds value
  | .binary l c r => c.apply (l.holds value) (r.holds value)

end

namespace Phrase

/-- Whether the phrase is a single word. -/
def isWord : Phrase → Bool
  | word _ => true
  | negation _ | binary .. => false

/-- A phrase as a word: any but a single word goes into parentheses. -/
def toWord : Phrase → Word
  | word w => w
  | negation p => .group (.negation p)
  | binary l c r => .group (.binary l c r)

@[simp] theorem chars_toWord (p : Phrase) :
    p.toWord.chars =
      if p.isWord then p.chars else '(' :: (p.chars ++ [')']) := by
  cases p <;> rfl

@[simp] theorem holds_toWord (value : Atom → Bool) (p : Phrase) :
    p.toWord.holds value = p.holds value := by
  cases p <;> rfl

end Phrase

/-! ## §2. The phrase of a formula. -/

mutual

/-- What the printed form of an operand shows. -/
def Operand.phrase : Operand → Phrase
  | .literal l => .word (.literal l)
  | .formula f => f.phrase

/-- What the printed form of a formula shows. -/
def Formula.phrase : Formula → Phrase
  | .single x => .word x.phrase.toWord
  | .node x c r =>
      if (Formula.node x c r).isExceptional then .negation x.phrase
      else .binary x.phrase.toWord c r.phrase.toWord

end

theorem Formula.isExceptional_node_iff {x : Operand} {c : Connective}
    {r : Formula} :
    (node x c r).isExceptional = true ↔ c = .implies ∧ r = bot := by
  cases c <;> simp [isExceptional, isBot_iff]

/-- Compound formulas are those that show more than a word. -/
theorem Formula.isWord_phrase (f : Formula) :
    f.phrase.isWord = !f.isCompound := by
  cases f with
  | single x => rfl
  | node x c r =>
      rw [phrase]
      split <;> rfl

theorem Operand.isWord_phrase (x : Operand) :
    x.phrase.isWord = !x.isCompound := by
  cases x with
  | literal l => rfl
  | formula f => exact f.isWord_phrase

/-! ## §3. Text and meaning. -/

theorem toList_parenthesize (needed : Bool) (text : String) :
    (parenthesize needed text).toList =
      if needed then '(' :: (text.toList ++ [')']) else text.toList := by
  cases needed <;> simp [parenthesize]

mutual

theorem Operand.toList_bareText : ∀ x : Operand,
    x.bareText.toList = x.phrase.chars
  | .literal _ => rfl
  | .formula f => Formula.toList_text f

/-- **The text of a formula is the spelling of its phrase.** -/
theorem Formula.toList_text : ∀ f : Formula, f.text.toList = f.phrase.chars
  | .single x => by
      rw [Formula.text, Formula.phrase, Phrase.chars, toList_parenthesize,
        Operand.toList_bareText x, Phrase.chars_toWord,
        Operand.isWord_phrase]
      cases x.isCompound <;> rfl
  | .node x c r => by
      have hx := Operand.toList_bareText x
      have hr := Formula.toList_text r
      rw [Formula.text, Formula.phrase]
      split
      · simp [Phrase.chars, hx]
      · simp only [String.toList_append, toList_parenthesize, hx, hr,
          Phrase.chars, Phrase.chars_toWord, Operand.isWord_phrase,
          Formula.isWord_phrase]
        cases x.isCompound <;> cases r.isCompound <;> simp

end

mutual

theorem Operand.holds_phrase (value : Atom → Bool) : ∀ x : Operand,
    x.phrase.holds value = x.holds value
  | .literal _ => rfl
  | .formula f => Formula.holds_phrase value f

/-- **The phrase of a formula has its meaning.** -/
theorem Formula.holds_phrase (value : Atom → Bool) : ∀ f : Formula,
    f.phrase.holds value = f.holds value
  | .single x => by
      rw [Formula.phrase, Phrase.holds, Phrase.holds_toWord,
        Operand.holds_phrase value x]
      rfl
  | .node x c r => by
      have hx := Operand.holds_phrase value x
      have hr := Formula.holds_phrase value r
      rw [Formula.phrase]
      split
      case isTrue hexceptional =>
        obtain ⟨rfl, rfl⟩ := Formula.isExceptional_node_iff.mp hexceptional
        rw [Phrase.holds, hx, Formula.holds, Formula.holds_bot]
        simp [Connective.apply]
      case isFalse =>
        rw [Phrase.holds, Phrase.holds_toWord, Phrase.holds_toWord, hx, hr,
          Formula.holds]

end

end SystemZ
