import Scripting.Main
import Scripting.Editor.Service
import Scripting.Program.Same
import Scripting.Proofs.Grammar.Spelling
import Scripting.Proofs.Grammar.WellFormed
import Scripting.Proofs.Grammar.Passage
import Scripting.Proofs.Grammar.Unplaced
import Scripting.Proofs.Grammar.ExpressionSoundness
import Scripting.Proofs.Grammar.Opening
import Scripting.Proofs.Grammar.StatementSoundness
import Scripting.Proofs.Grammar.ExpressionCompleteness
import Scripting.Proofs.Grammar.StatementCompleteness
import Scripting.Proofs.Evaluation.Outcome
import Scripting.Proofs.Evaluation.Contract
import Scripting.Proofs.Evaluation.Soundness
import Scripting.Proofs.Grammar.Refusal
import Scripting.Proofs.Session.Reachable
import Scripting.Proofs.Session.Signals
import Scripting.Proofs.Grammar.Placing
import Scripting.Proofs.Grammar.Correspondence
import Scripting.Proofs.Evaluation.Operands
import Scripting.Proofs.Evaluation.Simulation
import Scripting.Proofs.Evaluation.Lockstep
import Scripting.Proofs.Evaluation.Keeping
import Scripting.Proofs.Evaluation.Likeness
import Scripting.Proofs.Scope.Names
import Scripting.Proofs.Scope.Agreement
import Scripting.Proofs.Scope.Encapsulation
import Scripting.Proofs.Grammar.Ending
import Scripting.Proofs.Grammar.Alongside
import Scripting.Proofs.Grammar.ExpressionAlike
import Scripting.Proofs.Grammar.StatementAlike
import Scripting.Proofs.Grammar.Concatenation
import Scripting.Proofs.Session.Texts
import Scripting.Proofs.Text.Places
import Scripting.Proofs.Token.Standing
import Scripting.Proofs.Token.Continuation
import Scripting.Proofs.Session.Intact
import Scripting.Proofs.Session.Pointing
import Scripting.Proofs.Session.Composition
import Scripting.Proofs.Token.LongestItem
import Scripting.Proofs.Token.LongestMatch
import Scripting.Proofs.Session.Layout
import Scripting.Proofs.Session.Unfinished
import Scripting.Proofs.Session.WithoutInput
import Scripting.Proofs.Text.Typed
import Scripting.Proofs.CommandLine.Asking
import Scripting.Proofs.CommandLine.Buffering
import Scripting.Proofs.CommandLine.Transcript
import Scripting.Proofs.CommandLine.Equivalence
import Scripting.Proofs.Grammar.Progress
import Scripting.Proofs.Grammar.Requests
import Scripting.Proofs.Evaluation.CutShort
import Scripting.Proofs.Grammar.CutShort
import Scripting.Proofs.Session.Exhaustion
import Scripting.Proofs.CommandLine.Exhaustion
import Scripting.Proofs.Scope.Rooted
import Scripting.Proofs.Scope.Heap
import Scripting.Proofs.Scope.Watched
import Scripting.Proofs.Session.Heap
import Scripting.Proofs.Session.Apart
import Scripting.Proofs.CommandLine.Reporting
import Scripting.Proofs.Session.Unnamed
import Scripting.Proofs.Grammar.Beginnings
import Scripting.Proofs.Editor.History
import Scripting.Proofs.Editor.Requests
import Scripting.Proofs.CommandLine.Parallel
import Scripting.Proofs.CommandLine.Room
import Scripting.Proofs.CommandLine.Tracing
import Scripting.Proofs.CommandLine.Scripts
import Scripting.Proofs.CommandLine.Statuses
import Scripting.Proofs.CommandLine.Finality
import Scripting.Proofs.Text.Files
import Scripting.Proofs.Editor.Workspace
import Scripting.Proofs.Editor.Precedence
import Scripting.Proofs.Grammar.Targets
import Scripting.Proofs.Grammar.ExpressionInterruption
import Scripting.Proofs.Grammar.StatementInterruption
import Scripting.Proofs.Session.Completion
import Scripting.Proofs.CommandLine.Completion
import Scripting.Proofs.Grammar.Ladder
import Scripting.Proofs.Token.Spacing
import Scripting.Proofs.Token.Quoting
import Scripting.Proofs.Scope.Lookups
import Scripting.Proofs.Token.Numerals
import Scripting.Proofs.Evaluation.Answers
import Scripting.Proofs.Number.Rounding
import Scripting.Proofs.Number.ReadBack
import Scripting.Proofs.Grammar.Ungrouped
import Scripting.Proofs.Evaluation.Groupings
