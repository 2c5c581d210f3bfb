import Monolet.Expr.Basic
import Monolet.Parser.Basic
import Monolet.Text.Decimal
import Monolet.Text.Quoted

/-!
# Parsing expressions

An expression is an atom followed by the atoms it is applied to. An atom is a bracketed expression, a
lambda, a `let`, an `if`, a variable or a literal. The body of a lambda, of a `let` and of an `if` reaches
as far as it can, so such an atom is the last one of its application.

Every nested expression comes after a token of its own, so the depth of nesting is bounded by the number of
tokens left: `within` recurses on that bound, and `expression` supplies it.
-/

namespace Monolet

namespace Expr

open Monolet.Parser (symbol select bracketed)

/-- The largest integer literal. -/
def maxInt : Nat := 0x7fffffffffffffff

/-- Read a name. -/
def ident : Parser Ident :=
  select "identifier" fun token =>
    match token.lexeme with
    | .ident name => some ⟨name, token.span⟩
    | _ => none

/-- The literal for a run of digits, unless its value is too large. -/
def ofDigits (digits : String) (span : Span) : Except ParseError Expr :=
  match (Decimal.read? digits.toList).filter (· ≤ maxInt) with
  | some n => .ok (int (Int64.ofNat n) span)
  | none => .error
      { cause := .integerRange, found := some (Lexeme.integer digits).describe, span := some span }

/-- Read an integer literal. -/
def integer : Parser Expr :=
  let digits := select "integer" fun token =>
    match token.lexeme with
    | .integer digits => some (digits, token.span)
    | _ => none
  digits.refine fun (digits, span) => ofDigits digits span

/-- Read `true` or `false`. -/
def boolean : Parser Expr :=
  select "boolean" fun token =>
    match token.lexeme with
    | .keyword .trueKw => some (bool true token.span)
    | .keyword .falseKw => some (bool false token.span)
    | _ => none

/-- Read a string literal. -/
def stringLiteral : Parser Expr :=
  select "string" fun token =>
    match token.lexeme with
    | .string written => some (string (Quoted.decode written) token.span)
    | _ => none

/-- Read a lambda whose body `inner` reads. -/
def lambda (inner : Parser Expr) : Parser Expr := do
  let start ← symbol .backslash
  let x ← ident
  let _ ← symbol .arrow
  let body ← inner
  return lam x body (start.span.merge body.span)

/-- Read a `let`. It is recursive when it says so or when its value mentions its name. -/
def letExpr (inner : Parser Expr) : Parser Expr := do
  let start ← symbol (.keyword .letKw)
  let marked ← (symbol (.keyword .recKw)).optional
  let x ← ident
  let _ ← symbol .equals
  let value ← inner
  let _ ← symbol (.keyword .inKw)
  let body ← inner
  return letIn (marked.isSome || x.name ∈ value.freeVars) x value body (start.span.merge body.span)

/-- Read an `if`. -/
def ifExpr (inner : Parser Expr) : Parser Expr := do
  let start ← symbol (.keyword .ifKw)
  let c ← inner
  let _ ← symbol (.keyword .thenKw)
  let t ← inner
  let _ ← symbol (.keyword .elseKw)
  let e ← inner
  return cond c t e (start.span.merge e.span)

/-- Read an atom, with `inner` for the expressions inside it. -/
def atom (inner : Parser Expr) : Parser Expr :=
  (bracketed inner <|> lambda inner <|> letExpr inner <|> ifExpr inner <|> var <$> ident <|>
    integer <|> boolean <|> stringLiteral).label "expression"

/-- A function applied to the atoms after it; each application spans its function and argument. -/
def applyAll (f : Expr) (args : List Expr) : Expr :=
  args.foldl (fun g a => app g a (g.span.merge a.span)) f

/-- Read an atom and the atoms that it is applied to. -/
def spine (atom : Parser Expr) : Parser Expr := do
  let f ← atom
  return f.applyAll (← atom.many)

/-- Read an expression of nesting depth below `n`. -/
def within : Nat → Parser Expr
  | 0 => throw { cause := .endOfInput }
  | n + 1 => spine (atom (within n))

/-- Read an expression. -/
def expression : Parser Expr := fun s => within (s.remaining + 1) s

/-- The expression that a whole source text is. -/
def parse (source : String) : Except ParseError Expr := expression.parse source

end Expr

end Monolet
