import Monolet.Eval
import Monolet.Expr.Parser
import Monolet.Typing.Infer

/-!
# Reports on programs

A program is checked against the types of the primitive operations and then, if asked, evaluated in their
scope. Neither depends on the other: an ill-typed program is evaluated too.
-/

namespace Monolet

/-- What checking and evaluating a named program gave. -/
structure Report where
  name : String
  typing : Except TypeError Ty
  /-- Missing when evaluation was not asked for. -/
  evaluation? : Option (Outcome Value)

namespace Report

/-- Check an expression and evaluate it if asked. -/
def ofExpr (fuel : Nat) (name : String) (evaluate : Bool) (e : Expr) : Report where
  name := name
  typing := e.infer .prelude
  evaluation? := if evaluate then some (e.eval fuel .prelude) else none

/-- Parse a program, check it and evaluate it if asked. -/
def ofSource (fuel : Nat) (name : String) (evaluate : Bool) (source : String) :
    Except ParseError Report :=
  (Expr.parse source).map (ofExpr fuel name evaluate)

/-- Does the program have a type? -/
def isWellTyped (r : Report) : Bool := r.typing.isOk

/-- The line on the type of the program. -/
def typingLine : Except TypeError Ty → String
  | .ok ty => "Inferred " ++ ty.print ++ "\n"
  | .error e => "Inference failed with: " ++ e.message ++ "\n"

/-- The line on the result of the program; a text is shown without quotes. -/
def evaluationLine : Outcome Value → String
  | .done (.string s) => s ++ "\n"
  | .done v => v.print ++ "\n"
  | .failed e => "Execution failed with: " ++ e.message ++ "\n"
  | .unfinished => "Execution did not finish\n"

/-- The text of a report. -/
def print (r : Report) : String :=
  let evaluation := match r.evaluation? with
    | some outcome => evaluationLine outcome
    | none => ""
  "Running \"" ++ r.name ++ "\":\n" ++ typingLine r.typing ++ evaluation

end Report

end Monolet
