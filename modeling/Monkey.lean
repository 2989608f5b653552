import Monkey.Token
import Monkey.Token.Lexer
import Monkey.Numeral
import Monkey.Expr
import Monkey.Expr.Equality
import Monkey.Expr.Printer
import Monkey.Expr.Precedence
import Monkey.Expr.Parser
import Monkey.Expr.Parser.Equations
import Monkey.Diagnostic
import Monkey.Cursor
import Monkey.Program.Parser
import Monkey.Builtin
import Monkey.Builtin.Apply
import Monkey.Fault
import Monkey.Failure
import Monkey.Value
import Monkey.Value.Table
import Monkey.Value.Inspect
import Monkey.Value.Equality
import Monkey.Store
import Monkey.Eval
import Monkey.Eval.Operators
import Monkey.Session
import Monkey.Console.Completeness
import Monkey.Console.Highlight
import Monkey.Console.Prompt
import Monkey.Console.Reply
import Monkey.CommandLine.Arguments
import Monkey.CommandLine.Execute
import Monkey.Main
import Monkey.Proofs.Syntax.Grammar
import Monkey.Proofs.Syntax.Completeness
import Monkey.Proofs.Syntax.Soundness
import Monkey.Proofs.Syntax.Acceptance
import Monkey.Proofs.Text.Scan
import Monkey.Proofs.Syntax.Canonical
import Monkey.Proofs.Syntax.CanonicalText
import Monkey.Proofs.Syntax.Reach
import Monkey.Proofs.Syntax.RoundTrip
import Monkey.Proofs.Syntax.Lookahead
import Monkey.Proofs.Syntax.Viability
import Monkey.Proofs.Syntax.Settlement
import Monkey.Proofs.Syntax.Braces
import Monkey.Proofs.Syntax.EarliestFault
import Monkey.Proofs.Text.Lines
import Monkey.Proofs.Syntax.Shift
import Monkey.Proofs.Syntax.Recovery
import Monkey.Proofs.Eval.Sequence
import Monkey.Proofs.Eval.Transport
import Monkey.Proofs.Eval.Content
import Monkey.Proofs.Eval.Budget
import Monkey.Proofs.Eval.Exceptions
import Monkey.Proofs.Eval.Confinement
import Monkey.Proofs.Eval.Watch
import Monkey.Proofs.Eval.Signals
import Monkey.Proofs.Text.Segmentation
import Monkey.Proofs.Value.Insertions
import Monkey.Proofs.Eval.Irrelevance
import Monkey.Proofs.Eval.Scoping
import Monkey.Proofs.Syntax.Wording
import Monkey.Proofs.Syntax.Layout
import Monkey.Proofs.Console.OpenDelimiters
import Monkey.Proofs.Eval.Ledger
import Monkey.Proofs.Eval.Identity
import Monkey.Proofs.Syntax.Joint
import Monkey.Proofs.Eval.Succession
import Monkey.Proofs.CommandLine.Agreement
import Monkey.Proofs.Syntax.Rounds
import Monkey.Proofs.Syntax.Procedure
import Monkey.Proofs.Syntax.Composition
import Monkey.Proofs.Syntax.SourceOrder
import Monkey.Proofs.Console.Coloring
import Monkey.Proofs.Value.Keys
import Monkey.Proofs.Eval.HashLiteral
import Monkey.Proofs.Value.Plain
import Monkey.Proofs.Syntax.Magnitude
import Monkey.Proofs.Eval.ReadBack
import Monkey.Proofs.Eval.FunctionText
import Monkey.Proofs.Eval.NearestScope
import Monkey.Proofs.Value.Congruence
import Monkey.Proofs.Eval.Arithmetic
import Monkey.Proofs.Eval.Arrays
import Monkey.Proofs.Syntax.Agenda
import Monkey.Proofs.Syntax.Simulation
import Monkey.Proofs.Syntax.OpenBraces
import Monkey.Proofs.Syntax.Strength
import Monkey.Proofs.Syntax.IntegerLiteral
