/-
  SystemZ.Trace
  ─────────────
  **WHAT A PROCEDURE REPORTS WHILE IT RUNS.**

  The three reasoning procedures report their progress as events.  An event
  keeps its numbers; severity and wording are functions of it.  A traced
  value is a result with the events of its computation, in order.
-/
import SystemZ.Formula.Text

namespace SystemZ

/-- One report of a reasoning procedure. -/
inductive Event where
  /-- A level of a stratification: its conditionals, and how many of them are
  exceptional there. -/
  | stratum (level conditionals exceptional : Nat)
  /-- The end of a stratification. -/
  | stratified (finiteRanks infiniteConditionals : Nat)
  /-- A level of a ranked model: how many valuations violate a rule there. -/
  | worldLevel (level violating : Nat)
  /-- The end of a ranked model. -/
  | worldsRanked (count : Nat) (maxFinite : Option Nat) (infinite : Nat)
  /-- The first justification, which fixes the size of all. -/
  | justificationFound (size : Nat)
  /-- The end of a search for justifications of the negation of `formula`. -/
  | justificationsFound (count : Nat) (formula : Formula) (among : Nat)
  deriving DecidableEq

namespace Event

/-- The two severities of events. -/
inductive Severity where
  | debug
  | info
  deriving DecidableEq

/-- The name of a severity. -/
def Severity.text : Severity → String
  | debug => "DEBUG"
  | info => "INFO"

/-- Summaries inform; the steps before them are for debugging. -/
def severity : Event → Severity
  | stratum .. | worldLevel .. | justificationFound .. => .debug
  | stratified .. | worldsRanked .. | justificationsFound .. => .info

/-- The wording of an optional number. -/
def optionText : Option Nat → String
  | some n => "Some(" ++ toString n ++ ")"
  | none => "None"

/-- The wording of an event. -/
def message : Event → String
  | stratum level n exceptional =>
      "level " ++ toString level ++ ": " ++ toString n ++ " conditionals, " ++
        toString exceptional ++ " exceptional"
  | stratified ranks n =>
      "statement ranking has " ++ toString ranks ++ " finite ranks and " ++
        toString n ++ " conditionals of infinite rank"
  | worldLevel level n =>
      "level " ++ toString level ++ ": " ++ toString n ++
        " violating valuations"
  | worldsRanked n top infinite =>
      "ranked model over " ++ toString n ++
        " valuations: max finite rank is " ++ optionText top ++ ", " ++
        toString infinite ++ " valuations of infinite rank"
  | justificationFound size =>
      "found a justification of size " ++ toString size
  | justificationsFound n formula among =>
      toString n ++ " justifications found for " ++ formula.text ++ " among " ++
        toString among ++ " defeasible conditionals"

/-- An event as a line of a log: severity and wording. -/
def text (e : Event) : String := e.severity.text ++ ": " ++ e.message

/-- Whether the event reports one round of a construction by levels. -/
def isRound : Event → Bool
  | stratum .. | worldLevel .. => true
  | stratified .. | worldsRanked .. | justificationFound ..
  | justificationsFound .. => false

end Event

/-- A result with the events of its computation. -/
structure Traced (α : Type) where
  value : α
  /-- The events, the earliest first. -/
  trace : List Event

/-- The number of rounds that the trace reports. -/
def Traced.rounds {α : Type} (t : Traced α) : Nat :=
  t.trace.countP Event.isRound

end SystemZ
