import Lookahead.Grammar.Definition
import Lookahead.Guard.Pool
import Lookahead.Iteration.Lemmas
import Lookahead.Proofs.Analysis
import Lookahead.Proofs.Bisection
import Lookahead.Proofs.Closure.Collect
import Lookahead.Proofs.Closure.Exact
import Lookahead.Proofs.Closure.Hoisting
import Lookahead.Proofs.Closure.Limits
import Lookahead.Proofs.Closure.Moves
import Lookahead.Proofs.Closure.Places
import Lookahead.Proofs.Closure.Reach
import Lookahead.Proofs.Closure.Recursion
import Lookahead.Proofs.Closure.Termination
import Lookahead.Proofs.Construction.Arising
import Lookahead.Proofs.Construction.Build
import Lookahead.Proofs.Construction.Conflict
import Lookahead.Proofs.Construction.Exactness
import Lookahead.Proofs.Construction.Limits
import Lookahead.Proofs.Construction.Made
import Lookahead.Proofs.Construction.Reachable
import Lookahead.Proofs.Construction.Recursion
import Lookahead.Proofs.Construction.Reported
import Lookahead.Proofs.Construction.Termination
import Lookahead.Proofs.Construction.Traced
import Lookahead.Proofs.Construction.Transitions
import Lookahead.Proofs.Construction.Unambiguous
import Lookahead.Proofs.Construction.Walk
import Lookahead.Proofs.Construction.WellFormed
import Lookahead.Proofs.Exploration
import Lookahead.Proofs.Cycle
import Lookahead.Proofs.Grammar.Admits
import Lookahead.Proofs.Grammar.Assignment
import Lookahead.Proofs.Grammar.Definition
import Lookahead.Proofs.Grammar.Derivation
import Lookahead.Proofs.Grammar.Dispatch
import Lookahead.Proofs.Grammar.Enclosed
import Lookahead.Proofs.Grammar.Faults
import Lookahead.Proofs.Grammar.Items
import Lookahead.Proofs.Grammar.Literals
import Lookahead.Proofs.Grammar.Lowering
import Lookahead.Proofs.Grammar.Meaning
import Lookahead.Proofs.Grammar.Nesting
import Lookahead.Proofs.Grammar.Numbering
import Lookahead.Proofs.Grammar.Records
import Lookahead.Proofs.Grammar.Sources
import Lookahead.Proofs.Grammar.Trace
import Lookahead.Proofs.Grammar.WellDefined
import Lookahead.Proofs.Grammar.WellFormed
import Lookahead.Proofs.Guard.Absorption
import Lookahead.Proofs.Guard.Bracketing
import Lookahead.Proofs.Guard.Canonical
import Lookahead.Proofs.Guard.Conjunction
import Lookahead.Proofs.Guard.Evaluation
import Lookahead.Proofs.Guard.Laws
import Lookahead.Proofs.Guard.Meaning
import Lookahead.Proofs.Guard.Pool
import Lookahead.Proofs.Guard.Predicates
import Lookahead.Proofs.Guard.Questions
import Lookahead.Proofs.Guard.Same
import Lookahead.Proofs.Guard.Sessions
import Lookahead.Proofs.Network.Actions
import Lookahead.Proofs.Network.Along
import Lookahead.Proofs.Network.Contains
import Lookahead.Proofs.Network.Dispatch
import Lookahead.Proofs.Network.Frames
import Lookahead.Proofs.Network.Laid
import Lookahead.Proofs.Network.Layout
import Lookahead.Proofs.Network.OfGrammar
import Lookahead.Proofs.Network.Path
import Lookahead.Proofs.Network.Placed
import Lookahead.Proofs.Network.Traversal
import Lookahead.Proofs.Outcome
import Lookahead.Proofs.Prediction
import Lookahead.Proofs.Prediction.Asked
import Lookahead.Proofs.Prediction.Built
import Lookahead.Proofs.Prediction.DeadEnd
import Lookahead.Proofs.Prediction.Foreseen
import Lookahead.Proofs.Prediction.Gates
import Lookahead.Proofs.Prediction.Inquiry
import Lookahead.Proofs.Prediction.MemoFree
import Lookahead.Proofs.Prediction.Shared
import Lookahead.Proofs.Prediction.Told
import Lookahead.Proofs.Recognition.Agreement
import Lookahead.Proofs.Recognition.Completeness
import Lookahead.Proofs.Recognition.Depth
import Lookahead.Proofs.Recognition.EarlyExit
import Lookahead.Proofs.Recognition.Follows
import Lookahead.Proofs.Recognition.LongestMatch
import Lookahead.Proofs.Recognition.Progress
import Lookahead.Proofs.Recognition.Soundness
import Lookahead.Proofs.Recognition.Straying
import Lookahead.Proofs.Recognition.Termination
import Lookahead.Proofs.Recognition.Tiling
import Lookahead.Proofs.Resolving
import Lookahead.Proofs.Run.Basic
import Lookahead.Proofs.Sorting
import Lookahead.Proofs.SymbolSet.Partition
import Lookahead.Proofs.Wire
import Lookahead.Recognition.Tokenizer
import Lookahead.Script.Host
import Lookahead.Wire.Automaton
import Lookahead.Proofs.SymbolSet.NormalForm
import Lookahead.Proofs.SymbolSet.Queries
import Lookahead.Proofs.SymbolSet.Refinement
import Lookahead.Proofs.Guard.Legible
import Lookahead.Proofs.Guard.Linear
import Lookahead.Proofs.Text
import Lookahead.Proofs.Script.Condition
import Lookahead.Proofs.Suggestion
