import Monolet.Parser.Basic
import Monolet.Text.Decimal
import Monolet.Ty.Basic

/-!
# Parsing types

A type is a named type or a bracketed type, and after an arrow possibly its result. Nested types come after
a token of their own, so as with expressions the recursion is on a bound for the tokens left.
-/

namespace Monolet

namespace Ty

/-- The unknown that a name such as `u12` stands for; its number is positive and fits 64 bits. -/
def unknownOfName? (name : String) : Option Nat :=
  match name.toList with
  | 'u' :: digits => (Decimal.read? digits).filter fun id => 0 < id ∧ id < UInt64.size
  | _ => none

/-- The type that one token stands for. -/
def ofToken (token : Token) : Except ParseError Ty :=
  match token.lexeme with
  | .typeName "Int" => .ok int
  | .typeName "Bool" => .ok bool
  | .typeName "String" => .ok string
  | .typeName name =>
    .error { cause := .unknownType, found := some ("'" ++ name ++ "'"), span := some token.span }
  | .ident name =>
    match unknownOfName? name with
    | some id => .ok (unknown id)
    | none =>
      .error { cause := .malformedUnknown, found := some ("'" ++ name ++ "'"), span := some token.span }
  | other =>
    .error { cause := .unexpectedToken, expected := ["type"], found := some other.describe,
             span := some token.span }

/-- Read a type of one token. -/
def named : Parser Ty := fun s =>
  match s.peek with
  | none => Parser.reject { cause := .endOfInput, expected := ["type"] } s
  | some token =>
    match ofToken token with
    | .ok ty => .ok ty s.advance
    | .error e => Parser.reject e s

/-- Read a named or bracketed type, with `inner` for the type between the brackets. -/
def atom (inner : Parser Ty) : Parser Ty := Parser.bracketed inner <|> named

/-- Read a type, with `inner` for the types between brackets and after an arrow. -/
def arrow (inner : Parser Ty) : Parser Ty := do
  let arg ← atom inner
  match ← (Parser.symbol .arrow *> inner).optional with
  | some res => return fn arg res
  | none => return arg

/-- Read a type of nesting depth below `n`. -/
def within : Nat → Parser Ty
  | 0 => throw { cause := .endOfInput }
  | n + 1 => arrow (within n)

/-- Read a type. -/
def monotype : Parser Ty := fun s => within (s.remaining + 1) s

/-- The type that a whole source text is. -/
def parse (source : String) : Except ParseError Ty := monotype.parse source

end Ty

end Monolet
