/-
  SystemZ.KnowledgeBase
  ─────────────────────
  **KNOWLEDGE BASES: FINITE SETS OF CONDITIONALS.**

  A knowledge base is a set in canonical form, so order and repetition of its
  conditionals are forgotten when it is built, and union, difference,
  inclusion and comparison are those of sets.
-/
import SystemZ.Alphabet
import SystemZ.Conditional

namespace SystemZ

/-- A finite set of conditionals. -/
abbrev KnowledgeBase := SortedSet Conditional

namespace KnowledgeBase

/-- The atoms that occur in the conditionals. -/
def atoms (kb : KnowledgeBase) : SortedSet Atom :=
  .ofList (kb.toList.flatMap fun s => s.atoms.toList)

/-- The alphabet of the atoms that occur. -/
def alphabet (kb : KnowledgeBase) : Except AlphabetError Alphabet :=
  Alphabet.ofSet kb.atoms

/-- The strict readings of the conditionals. -/
def materialized (kb : KnowledgeBase) : SortedSet Formula :=
  kb.map Conditional.materialize

/-- The classical conditionals and the others. -/
def separate (kb : KnowledgeBase) : KnowledgeBase × KnowledgeBase :=
  kb.partition Conditional.isClassical

/-- The printed form: the conditionals between braces, with commas. -/
def text (kb : KnowledgeBase) : String :=
  "\x7b " ++ ", ".intercalate (kb.toList.map Conditional.text) ++ " \x7d"

end KnowledgeBase

end SystemZ
