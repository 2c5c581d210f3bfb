import Monolet.Parser.Error

/-!
# Parsers over a token stream

A parser reads tokens from an index on. A failing parser leaves the index where it stopped; whoever tries
something else goes back first. Beside the index the stream keeps the failure that lies furthest into the
tokens, because that one is reported in the end: of two failures at one index the later is kept.
-/

namespace Monolet

/-- Tokens, the index of the next one to read, and the furthest failure with the index it was recorded at. -/
structure TokenStream where
  tokens : Array Token
  index : Nat := 0
  furthest : Option (Nat × ParseError) := none

namespace TokenStream

/-- A stream at the first of the given tokens. -/
def ofList (tokens : List Token) : TokenStream := { tokens := tokens.toArray }

/-- The next token, if there is one. -/
def peek (s : TokenStream) : Option Token := s.tokens[s.index]?

/-- Is there a next token? -/
def hasNext (s : TokenStream) : Bool := s.peek.isSome

/-- The number of tokens not yet read. -/
def remaining (s : TokenStream) : Nat := s.tokens.size - s.index

/-- Step over the next token. At the end nothing changes. -/
def advance (s : TokenStream) : TokenStream :=
  if s.hasNext then { s with index := s.index + 1 } else s

/-- Go to an index, which may lie past the end. -/
def restore (s : TokenStream) (index : Nat) : TokenStream := { s with index }

/-- Keep an error at the current index unless one further on is kept already. -/
def record (s : TokenStream) (e : ParseError) : TokenStream :=
  match s.furthest with
  | some (i, _) => if s.index < i then s else { s with furthest := some (s.index, e) }
  | none => { s with furthest := some (s.index, e) }

/-- The kept error, if it was recorded at the current index or further on. -/
def furthestError (s : TokenStream) : Option ParseError :=
  match s.furthest with
  | some (i, e) => if s.index ≤ i then some e else none
  | none => none

/-- An error about the next token; at the end of the tokens it is about that. -/
def errorHere (s : TokenStream) (cause : ParseError.Cause) : ParseError :=
  match s.peek with
  | some token => { cause, found := some token.lexeme.describe, span := some token.span }
  | none => { cause := .endOfInput }

instance : EStateM.Backtrackable Nat TokenStream where
  save s := s.index
  restore s index := s.restore index

end TokenStream

/-- A parser: it reads from a stream and yields a value or an error, and the stream in either case. The
alternative `p <|> q` runs `q` from where `p` started. -/
abbrev Parser := EStateM ParseError TokenStream

namespace Parser

variable {α β : Type}

/-- Fail with an error and record it. -/
def reject (e : ParseError) : Parser α := fun s => .error e (s.record e)

/-- Read the next token if `accept` takes it; `expected` names what it takes. -/
def select (expected : String) (accept : Token → Option α) : Parser α := fun s =>
  match s.peek with
  | none => reject { cause := .endOfInput, expected := [expected] } s
  | some token =>
    match accept token with
    | some a => .ok a s.advance
    | none =>
      reject { s.errorHere .unexpectedToken with expected := [expected] } s

/-- Read one given keyword or sign. -/
def symbol (lexeme : Lexeme) : Parser Token :=
  select lexeme.describe fun token => if token.lexeme = lexeme then some token else none

/-- Replace the value of `p`, or refuse it with an error that is recorded after what `p` read. -/
def refine (p : Parser α) (f : α → Except ParseError β) : Parser β := do
  match f (← p) with
  | .ok b => return b
  | .error e => reject e

/-- Say that `name` was expected when `p` fails at its very start. -/
def label (name : String) (p : Parser α) : Parser α := fun s =>
  match p s with
  | .ok a s' => .ok a s'
  | .error e s' =>
    if s.index < s'.index then .error e s'
    else reject { s'.errorHere .unexpectedToken with expected := [name] } s'

/-- Try `p`, and go back if it fails. -/
def optional (p : Parser α) : Parser (Option α) := some <$> p <|> pure none

/-- Repeat `p` at most `n` times, up to its first failure. -/
def atMost (p : Parser α) : Nat → Parser (List α)
  | 0 => pure []
  | n + 1 => do
    match ← p.optional with
    | some a => return a :: (← atMost p n)
    | none => return []

/-- Repeat `p` up to its first failure. If `p` reads a token whenever it succeeds, then it has failed after one
try more than there are tokens left, so the bound on the tries cuts nothing off. -/
def many (p : Parser α) : Parser (List α) := fun s => atMost p (s.remaining + 1) s

/-- Read something between round brackets. -/
def bracketed (p : Parser α) : Parser α := symbol .lparen *> p <* symbol .rparen

/-- Run `p` and require that it reads all tokens. A failure is reported by the furthest error. -/
def complete (p : Parser α) : Parser α := fun s =>
  match p s with
  | .ok a s' =>
    if s'.hasNext then .error (s'.furthestError.getD (s'.errorHere .unexpectedToken)) s'
    else .ok a s'
  | .error e s' =>
    let start := s'.restore 0
    .error (start.furthestError.getD e) start

/-- Parse a whole source text. -/
def parse (p : Parser α) (source : String) : Except ParseError α :=
  match Token.lex source with
  | .error e => .error { cause := .lexing e }
  | .ok tokens =>
    match p.complete (.ofList tokens) with
    | .ok a _ => .ok a
    | .error e _ => .error e

end Parser

end Monolet
