import SystemZ.Justification
import SystemZ.Report.RankedModel
import SystemZ.Valuation.Lemmas
import SystemZ.Proofs.Assignments
import SystemZ.Proofs.Negation
import SystemZ.Proofs.Entailment
import SystemZ.Proofs.Constructions
import SystemZ.Proofs.Refutation
import SystemZ.Proofs.Exceptionality
import SystemZ.Proofs.Ladder
import SystemZ.Proofs.LeastRanking
import SystemZ.Proofs.Agreement
import SystemZ.Proofs.Entries
import SystemZ.Proofs.AntecedentRanks
import SystemZ.Proofs.SmallestJustifications
import SystemZ.Proofs.RefutedFormulas
import SystemZ.Proofs.Partition
import SystemZ.Proofs.Relegation
import SystemZ.Proofs.Levels
import SystemZ.Proofs.Matching
import SystemZ.Proofs.Monotonicity
import SystemZ.Proofs.Counterparts
import SystemZ.Proofs.Projection
import SystemZ.Proofs.StrictRules
import SystemZ.Proofs.Renaming
import SystemZ.Proofs.RenamedBases
import SystemZ.Proofs.AlphabetLimit
import SystemZ.Proofs.ExtraAtoms
import SystemZ.Proofs.Phrases
import SystemZ.Proofs.Readability
import SystemZ.Proofs.Traces
import SystemZ.Proofs.Violations
import SystemZ.Proofs.Hardening
import SystemZ.Proofs.DoubleNegation
import SystemZ.Proofs.TrueAtoms
import SystemZ.Proofs.ValuationOrder
import SystemZ.Proofs.Cursors
import SystemZ.Proofs.ModelLists
import SystemZ.Proofs.RankLookup
import SystemZ.Proofs.Parts
import SystemZ.Proofs.Alignment
import SystemZ.Proofs.TableReading
import SystemZ.Proofs.Tables
import SystemZ.Proofs.SetAlgebra
import SystemZ.Proofs.RelevantAtoms
import SystemZ.Proofs.RepeatedNegation
import SystemZ.Proofs.CanonicalAlphabets
