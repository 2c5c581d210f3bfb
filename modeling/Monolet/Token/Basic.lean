import Monolet.Span.Basic

/-!
# Tokens

A lexeme is one word of the language; a token is a lexeme with the span it was read from. Integers and
strings keep their written form: digits with leading zeros, and text with its quotes and escapes.
-/

namespace Monolet

/-- The reserved words. -/
inductive Keyword where
  | letKw
  | recKw
  | inKw
  | ifKw
  | thenKw
  | elseKw
  | trueKw
  | falseKw
deriving DecidableEq

namespace Keyword

/-- How a reserved word is written. -/
def text : Keyword → String
  | letKw => "let"
  | recKw => "rec"
  | inKw => "in"
  | ifKw => "if"
  | thenKw => "then"
  | elseKw => "else"
  | trueKw => "true"
  | falseKw => "false"

/-- The reserved word written by `word`, if it is one. -/
def ofText? (word : String) : Option Keyword :=
  [letKw, recKw, inKw, ifKw, thenKw, elseKw, trueKw, falseKw].find? (·.text = word)

end Keyword

/-- One word of the language. -/
inductive Lexeme where
  | keyword (word : Keyword)
  | ident (name : String)
  | typeName (name : String)
  | integer (digits : String)
  | string (written : String)
  | equals
  | arrow
  | backslash
  | lparen
  | rparen
deriving DecidableEq

namespace Lexeme

/-- How a lexeme is written. -/
def text : Lexeme → String
  | keyword word => word.text
  | ident name => name
  | typeName name => name
  | integer digits => digits
  | string written => written
  | equals => "="
  | arrow => "->"
  | backslash => "\\"
  | lparen => "("
  | rparen => ")"

/-- How a lexeme is named in a message. -/
def describe : Lexeme → String
  | ident name => "identifier '" ++ name ++ "'"
  | typeName name => "type name '" ++ name ++ "'"
  | integer digits => "integer '" ++ digits ++ "'"
  | string written => "string " ++ written
  | other => "'" ++ other.text ++ "'"

end Lexeme

/-- A lexeme and where it stands. -/
structure Token where
  lexeme : Lexeme
  span : Span
deriving DecidableEq

end Monolet
