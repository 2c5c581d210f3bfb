import Monolet.Expr.Printer
import Monolet.Primitive

/-!
# Values, scopes and evaluation errors

A value is a number, a boolean, a text, a closure or a primitive operation with the arguments it holds so far.
A closure keeps the scope it was made in; one that was bound by a recursive `let` also knows its own name,
which it binds to itself when it is called.
-/

namespace Monolet

/-- Results of evaluation. -/
inductive Value where
  | int (n : Int64)
  | bool (b : Bool)
  | string (s : String)
  | closure (binder : String) (body : Expr) (scope : NameMap Value) (self? : Option String)
  | primitive (p : Primitive) (args : List Value)

/-- Values of the names in scope. -/
abbrev Scope := NameMap Value

/-- The values of the primitive operations. -/
def Scope.prelude : Scope := .ofList (Primitive.table.map fun (name, p) => (name, .primitive p []))

/-- The number of evaluations that may be nested inside one another. -/
def maxDepth : Nat := 10000

/-- Why an evaluation failed. -/
inductive EvalError where
  | unknownVariable (name : String)
  | notAFunction (v : Value)
  | expectedInt (v : Value)
  | expectedBool (v : Value)
  | expectedString (v : Value)
  | recursiveNonFunction (name : String) (v : Value)
  | tooDeep

namespace Value

/-- The printed form of a value; functions are shown by a name only. -/
def print : Value → String
  | int n => Decimal.ofInt n.toInt
  | bool b => if b then "true" else "false"
  | string s => Quoted.encode s
  | closure _ _ _ (some name) => "<function " ++ name ++ ">"
  | closure binder _ _ none => "<closure \\" ++ binder ++ ">"
  | primitive p _ => "<primitive " ++ p.name ++ ">"

/-- Closures and primitive operations. -/
def isFunction : Value → Bool
  | closure .. | primitive .. => true
  | int _ | bool _ | string _ => false

/-- Numbers, booleans and texts are equal by content; a function equals nothing. -/
def same : Value → Value → Bool
  | int m, int n => m = n
  | bool a, bool b => a = b
  | string s, string t => s = t
  | _, _ => false

/-- The number that a value is. -/
def asInt : Value → Except EvalError Int64
  | int n => .ok n
  | v => .error (.expectedInt v)

/-- The boolean that a value is. -/
def asBool : Value → Except EvalError Bool
  | bool b => .ok b
  | v => .error (.expectedBool v)

/-- The text that a value is. -/
def asString : Value → Except EvalError String
  | string s => .ok s
  | v => .error (.expectedString v)

end Value

/-- The message of a failed evaluation. -/
def EvalError.message : EvalError → String
  | unknownVariable name => "Unknown variable " ++ name
  | notAFunction v => v.print ++ " is not a function"
  | expectedInt v => "Expected an Int but got " ++ v.print
  | expectedBool v => "Expected a Bool but got " ++ v.print
  | expectedString v => "Expected a String but got " ++ v.print
  | recursiveNonFunction name v =>
    "Only functions may be declared recursively, but " ++ name ++ " is " ++ v.print
  | tooDeep => "Evaluation nested deeper than " ++ Decimal.ofNat maxDepth ++ " levels"

end Monolet
