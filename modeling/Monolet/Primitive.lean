import Monolet.NameMap
import Monolet.Ty.Basic

/-!
# Primitive operations

The operations that every program may use, with their names, arities and types. One table feeds the typing
environment here and the initial scope of evaluation, so a name has a type exactly when it can be run.
-/

namespace Monolet

/-- The built-in operations. -/
inductive Primitive where
  | add
  | sub
  | intEquals
  | concat
  | intToString
deriving DecidableEq

namespace Primitive

/-- All operations. -/
def all : List Primitive := [add, sub, intEquals, concat, intToString]

/-- The name that an operation is shown by. -/
def name : Primitive → String
  | add => "add"
  | sub => "sub"
  | intEquals => "int_equals"
  | concat => "concat"
  | intToString => "int_to_string"

/-- The names that a program may use for an operation. -/
def names : Primitive → List String
  | intEquals => ["int_equals", "eq_int"]
  | p => [p.name]

/-- The operation with a given name. -/
def ofName? (name : String) : Option Primitive := all.find? (name ∈ ·.names)

/-- The number of arguments that an operation runs on. -/
def arity : Primitive → Nat
  | intToString => 1
  | add | sub | intEquals | concat => 2

/-- The type of an operation. -/
def signature : Primitive → Ty
  | add | sub => .curried [.int, .int] .int
  | intEquals => .curried [.int, .int] .bool
  | concat => .curried [.string, .string] .string
  | intToString => .fn .int .string

/-- Every name of every operation. -/
def table : List (String × Primitive) := all.flatMap fun p => p.names.map (·, p)

end Primitive

/-- Types of the names in scope. -/
abbrev TypeEnv := NameMap Ty

/-- The types of the primitive operations. -/
def TypeEnv.prelude : TypeEnv := .ofList (Primitive.table.map fun (name, p) => (name, p.signature))

end Monolet
