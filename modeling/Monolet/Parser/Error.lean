import Monolet.Span.Excerpt
import Monolet.Token.Lexer

/-!
# Parse errors

A parse error says what went wrong, what was expected instead, what was found and where. The place is
missing when the text ended too early or could not be read into tokens.
-/

namespace Monolet

/-- What went wrong. -/
inductive ParseError.Cause where
  | unexpectedToken
  | endOfInput
  | integerRange
  | unknownType
  | malformedUnknown
  | lexing (error : LexError)
  | custom (message : String)

/-- The bare message of a cause. -/
def ParseError.Cause.message : ParseError.Cause → String
  | unexpectedToken => "unexpected token"
  | endOfInput => "unexpected end of input"
  | integerRange => "integer literal out of range"
  | unknownType => "unknown type"
  | malformedUnknown => "type unknowns are written u<number>"
  | lexing error => "lexing failed: " ++ error.message
  | custom message => message

/-- A failure to parse: its cause, what was expected, what was found and where. -/
structure ParseError where
  cause : ParseError.Cause
  expected : List String := []
  found : Option String := none
  span : Option Span := none

namespace ParseError

/-- The message with the expected and the found things. -/
def details (e : ParseError) : String :=
  let expected := if e.expected.isEmpty then "" else ", expected " ++ " or ".intercalate e.expected
  let found := match e.found with
    | some text => ", found " ++ text
    | none => ""
  e.cause.message ++ expected ++ found

/-- The error as an excerpt of the source, or in one line when it has no place. There is no text when its
place does not fit the source. -/
def render (h : Highlight) (source : String) (e : ParseError) : Option String :=
  match e.span with
  | some span => span.excerpt h source e.details
  | none => some ("Parse error: " ++ e.details)

end ParseError

end Monolet
