import Ebnf.Attempt.Nesting
import Ebnf.Context
import Ebnf.Element.Analysis
import Ebnf.Element.Grouping
import Ebnf.Element.Language
import Ebnf.Element.WellFormed
import Ebnf.Expression
import Ebnf.Node.Placement
import Ebnf.Parser
import Ebnf.Renaming
import Ebnf.Proofs.Consumption
import Ebnf.Proofs.Adequacy
import Ebnf.Proofs.Splicing
import Ebnf.Proofs.Flattening
import Ebnf.Proofs.Shift
import Ebnf.Proofs.Subtrees
import Ebnf.Proofs.Construction
import Ebnf.Proofs.Diagnostics
import Ebnf.Proofs.ForeignCharacter
import Ebnf.Proofs.CursorSoundness
import Ebnf.Proofs.SearchLog
import Ebnf.Proofs.LogTruth
import Ebnf.Proofs.Reading
import Ebnf.Proofs.Words
import Ebnf.Proofs.PrefixFree
import Ebnf.Proofs.Starving
import Ebnf.Proofs.Interchange
import Ebnf.Proofs.Grouping
import Ebnf.Proofs.Flatness
import Ebnf.Proofs.Readability
import Ebnf.Proofs.DisplayInjective
import Ebnf.Proofs.Nullability
import Ebnf.Proofs.Greedy
import Ebnf.Proofs.NestedRepetition
import Ebnf.Proofs.DiagnosticOrder
import Ebnf.Proofs.AttemptCount
import Ebnf.Proofs.Relocation
import Ebnf.Proofs.Factoring
import Ebnf.Proofs.Renaming
import Ebnf.Proofs.Shadowing
import Ebnf.Proofs.BytePrefix
import Ebnf.Proofs.NodeText
