import Monolet.Text.Lines
import Monolet.Token.Basic

/-!
# Reading tokens

Blanks between lexemes are skipped. At any other place the longest lexeme that the text starts with is
taken; a word that is reserved is a keyword and no identifier. Reading fails at the first place where no
lexeme starts.

A line feed between lexemes starts a new line. Inside a string it does not: columns then simply count on,
so that all positions after such a string keep the line the string began on.
-/

namespace Monolet

/-- Where reading stands: bytes read so far, line and byte column. -/
structure Cursor where
  offset : Nat := 0
  pos : Pos := {}

namespace Cursor

/-- Step over one blank. -/
def skip (here : Cursor) (c : Char) : Cursor :=
  ⟨here.offset + 1, if c = '\n' then ⟨here.pos.line + 1, 0⟩ else ⟨here.pos.line, here.pos.col + 1⟩⟩

/-- Step over `n` bytes of a lexeme. -/
def advance (here : Cursor) (n : Nat) : Cursor :=
  ⟨here.offset + n, ⟨here.pos.line, here.pos.col + n⟩⟩

end Cursor

/-- The text does not continue with a lexeme at byte `offset`. -/
structure LexError where
  source : String
  offset : Nat
  remaining : String

/-- The message of a reading failure. -/
def LexError.message (e : LexError) : String :=
  "Failed to lex '" ++ e.source ++ "' at position " ++ Decimal.ofNat e.offset ++
    "; remaining '" ++ e.remaining ++ "'"

namespace Lexeme

/-- Blanks that may stand between lexemes: space, tab, line feed, form feed and carriage return. -/
def isBlank (c : Char) : Bool :=
  c = ' ' || c = '\t' || c = '\n' || c = '\x0c' || c = '\r'

/-- A character that an identifier may start with. -/
def isIdentStart (c : Char) : Bool := c.isLower || c = '_'

/-- A character that a name may go on with. -/
def isNameRest (c : Char) : Bool := c.isAlphanum || c = '_' || c = '\''

/-- A word of lower-case start: a keyword if it is reserved, otherwise an identifier. -/
def ofWord (word : String) : Lexeme :=
  match Keyword.ofText? word with
  | some k => keyword k
  | none => ident word

/-- The rest of a string after its opening quote, up to and including the closing one, and what follows.
A backslash takes the next character with it, which may not be a line feed. -/
def stringTail : List Char → Option (List Char × List Char)
  | [] => none
  | '"' :: cs => some (['"'], cs)
  | ['\\'] => none
  | '\\' :: c :: cs =>
    if c = '\n' then none
    else (stringTail cs).map fun (tail, rest) => ('\\' :: c :: tail, rest)
  | c :: cs => (stringTail cs).map fun (tail, rest) => (c :: tail, rest)

/-- The longest lexeme that the text starts with, and the text after it. -/
def next? : List Char → Option (Lexeme × List Char)
  | [] => none
  | '=' :: cs => some (equals, cs)
  | '-' :: '>' :: cs => some (arrow, cs)
  | '\\' :: cs => some (backslash, cs)
  | '(' :: cs => some (lparen, cs)
  | ')' :: cs => some (rparen, cs)
  | '"' :: cs => (stringTail cs).map fun (tail, rest) => (string (String.ofList ('"' :: tail)), rest)
  | c :: cs =>
    if isIdentStart c then
      some (ofWord (String.ofList (c :: cs.takeWhile isNameRest)), cs.dropWhile isNameRest)
    else if c.isUpper then
      some (typeName (String.ofList (c :: cs.takeWhile isNameRest)), cs.dropWhile isNameRest)
    else if c.isDigit then
      some (integer (String.ofList (c :: cs.takeWhile Char.isDigit)), cs.dropWhile Char.isDigit)
    else none

theorem length_stringTail {cs tail rest : List Char} (h : stringTail cs = some (tail, rest)) :
    rest.length < cs.length := by
  fun_induction stringTail cs generalizing tail with
  | case1 | case3 | case4 => simp at h
  | case2 cs => simp_all
  | case5 c cs _ ih =>
    obtain ⟨⟨t, r⟩, hr, he⟩ := Option.map_eq_some_iff.1 h
    cases he
    exact Nat.lt_trans (ih hr) (by simp only [List.length_cons]; omega)
  | case6 c cs _ _ _ ih =>
    obtain ⟨⟨t, r⟩, hr, he⟩ := Option.map_eq_some_iff.1 h
    cases he
    exact Nat.lt_trans (ih hr) (by simp)

theorem length_next? {cs rest : List Char} {lexeme : Lexeme} (h : next? cs = some (lexeme, rest)) :
    rest.length < cs.length := by
  have shorter (p : Char → Bool) (cs : List Char) : (cs.dropWhile p).length ≤ cs.length :=
    (List.dropWhile_suffix p).length_le
  fun_cases next? cs
  case case7 cs =>
    obtain ⟨⟨t, r⟩, hr, he⟩ := Option.map_eq_some_iff.1 h
    cases he
    exact Nat.lt_trans (length_stringTail hr) (by simp)
  all_goals grind [next?]

end Lexeme

namespace Token

/-- The tokens of `cs`, which is what follows `here` in `source`. -/
def readAll (source : String) (here : Cursor) (cs : List Char) : Except LexError (List Token) :=
  match cs with
  | [] => .ok []
  | c :: after =>
    if Lexeme.isBlank c then readAll source (here.skip c) after
    else
      match _h : Lexeme.next? (c :: after) with
      | none => .error ⟨source, here.offset, String.ofList (c :: after)⟩
      | some (lexeme, rest) =>
        let there := here.advance (Text.byteLength lexeme.text.toList)
        (readAll source there rest).map (⟨lexeme, ⟨here.pos, there.pos⟩⟩ :: ·)
termination_by cs.length
decreasing_by
  · simp
  · exact Lexeme.length_next? _h

/-- The tokens of a source text. -/
def lex (source : String) : Except LexError (List Token) :=
  readAll source {} source.toList

end Token

end Monolet
