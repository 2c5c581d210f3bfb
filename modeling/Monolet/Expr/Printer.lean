import Monolet.Expr.Basic
import Monolet.Text.Decimal
import Monolet.Text.Quoted

/-!
# Printing expressions

An expression is printed on one line with as few brackets as the grammar allows: literals and variables
stand alone, an application may stand bare as the function of another one, and everything else is
bracketed when it is a function or an argument.
-/

namespace Monolet

namespace Expr

/-- Literals and variables, which are never bracketed. -/
def isAtomic : Expr → Bool
  | int .. | bool .. | string .. | var _ => true
  | lam .. | app .. | letIn .. | cond .. => false

/-- Expressions that stand as the function of an application without brackets. -/
def isFunctionForm : Expr → Bool
  | app .. => true
  | e => e.isAtomic

/-- A text, in brackets unless it may stand bare. -/
def bracketUnless (bare : Bool) (text : String) : String :=
  if bare then text else "(" ++ text ++ ")"

/-- The printed form of an expression. -/
def print : Expr → String
  | int n _ => Decimal.ofInt n.toInt
  | bool b _ => if b then "true" else "false"
  | string s _ => Quoted.encode s
  | var x => x.name
  | lam x body _ => "\\" ++ x.name ++ " -> " ++ body.print
  | app f a _ => bracketUnless f.isFunctionForm f.print ++ " " ++ bracketUnless a.isAtomic a.print
  | letIn r x value body _ =>
    (if r then "let rec " else "let ") ++ x.name ++ " = " ++ value.print ++ " in " ++ body.print
  | cond c t e _ => "if " ++ c.print ++ " then " ++ t.print ++ " else " ++ e.print

end Expr

end Monolet
