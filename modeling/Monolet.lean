import Monolet.Ascending
import Monolet.CommandLine.Options
import Monolet.CommandLine.Run
import Monolet.Eval
import Monolet.Expr.Basic
import Monolet.Expr.Parser
import Monolet.Expr.Printer
import Monolet.Main
import Monolet.NameMap
import Monolet.Parser.Basic
import Monolet.Parser.Error
import Monolet.Primitive
import Monolet.Program.Examples
import Monolet.Program.Report
import Monolet.Proofs.Subst.Acyclic
import Monolet.Proofs.Ty.Assignment
import Monolet.Span.Basic
import Monolet.Span.Excerpt
import Monolet.Subst.Basic
import Monolet.Subst.Unify
import Monolet.Text.Decimal
import Monolet.Text.Lines
import Monolet.Text.Quoted
import Monolet.Token.Basic
import Monolet.Token.Lexer
import Monolet.Ty.Basic
import Monolet.Ty.Parser
import Monolet.Ty.Printer
import Monolet.Typing.Error
import Monolet.Typing.Infer
import Monolet.Value
import Monolet.Proofs.Subst.Unifier
import Monolet.Proofs.Typing.Derivation
import Monolet.Proofs.Typing.Rules
import Monolet.Proofs.Typing.Soundness
import Monolet.Proofs.Typing.Completeness
import Monolet.Proofs.Typing.Constraints
import Monolet.Proofs.Typing.Sessions
import Monolet.Proofs.Eval.Safety
import Monolet.Proofs.Eval.Natural
import Monolet.Proofs.Eval.Termination
import Monolet.Proofs.Eval.Scoping
import Monolet.Proofs.Eval.Naming
import Monolet.Proofs.Parser.Reading
import Monolet.Proofs.Token.Lexing
import Monolet.Proofs.Expr.Grammar
import Monolet.Proofs.Expr.Reading
import Monolet.Proofs.Expr.Recognition
import Monolet.Proofs.Ty.Recognition
import Monolet.Proofs.Parser.Acceptance
import Monolet.Proofs.Parser.Furthest
import Monolet.Proofs.Expr.Spans
import Monolet.Proofs.Expr.Printed
import Monolet.Proofs.Expr.RoundTrip
import Monolet.Proofs.Parser.ErrorPosition
import Monolet.Proofs.Span.Covering
import Monolet.Proofs.Token.Placement
import Monolet.Proofs.Program.Rendering
import Monolet.Proofs.Subst.Renaming
import Monolet.Proofs.Typing.Renaming
import Monolet.Proofs.Typing.Reuse
import Monolet.Proofs.Subst.Insertion
import Monolet.Proofs.Subst.Failure
import Monolet.Proofs.Typing.EquationOrder
import Monolet.Proofs.Typing.Scoping
import Monolet.Proofs.Typing.BoundNames
import Monolet.Proofs.Typing.Accounting
import Monolet.Proofs.Expr.LetAsApplication
import Monolet.Proofs.Subst.Resolving
import Monolet.Proofs.Subst.Termination
import Monolet.Proofs.Eval.Depth
import Monolet.Proofs.Eval.Saturation
import Monolet.Proofs.Ty.RoundTrip
import Monolet.Proofs.Parser.Recursion
import Monolet.Proofs.Token.Quoting
import Monolet.Proofs.Parser.Termination
