import Monolet.Span.Basic
import Monolet.Text.Lines

/-!
# Excerpts: a message under the source text it is about

An excerpt shows the line before the span, the lines of the span with the span itself marked, and the
message under the end of the span. Lines are numbered from one, with the numbers of the outer lines left blank.
There is no excerpt when the span does not fit the text: when a line is missing, when a column lies
past the end of its line or inside a character, or when the span ends before it starts.
-/

namespace Monolet

/-- How the marked part of an excerpt is written. -/
inductive Highlight where
  | plain
  | red

namespace Highlight

/-- The terminal code that starts red text. -/
def redOn : List Char := ['\x1b', '[', '3', '1', 'm']

/-- The terminal code that ends all colours. -/
def allOff : List Char := ['\x1b', '[', '0', 'm']

/-- Red started anew after each code in the text that would end it. -/
def keepRed : List Char → List Char
  | '\x1b' :: '[' :: '0' :: 'm' :: cs => allOff ++ redOn ++ keepRed cs
  | c :: cs => c :: keepRed cs
  | [] => []

/-- The marked text; `red` is written with terminal escape codes, also around an empty text, and lasts to the end
of the text. -/
def mark : Highlight → List Char → List Char
  | plain, cs => cs
  | red, cs => redOn ++ keepRed cs ++ allOff

end Highlight

namespace Span

/-- The first line of the span, with the part that lies in the span marked. -/
def markedLine (h : Highlight) (span : Span) (line : List Char) : Option (List Char) := do
  let (left, right) ← Text.splitAtByte span.start.col line
  if span.start.line = span.stop.line then
    if span.start.col ≤ span.stop.col then
      let (inside, after) ← Text.splitAtByte (span.stop.col - span.start.col) right
      return left ++ h.mark inside ++ after
    else none
  else return left ++ h.mark right

/-- The line above the span, empty when the span starts on the first line. -/
def lineBefore (lines : List (List Char)) (span : Span) : Option (List Char) :=
  match span.start.line with
  | 0 => some []
  | n + 1 => lines[n]?

/-- The lines of the span below its first one. -/
def linesBelow (lines : List (List Char)) (span : Span) : Option (List (List Char)) :=
  (List.range (span.stop.line - span.start.line)).mapM fun i => lines[span.start.line + 1 + i]?

/-- The excerpt of `source` at `span` with `message` below it. -/
def excerpt (h : Highlight) (source : String) (span : Span) (message : String) : Option String := do
  let lines := Text.lines source.toList
  let before ← lineBefore lines span
  let first ← lines[span.start.line]?
  let shown ← markedLine h span first
  let below ← linesBelow lines span
  if span.stop.col = 0 then none
  let margin := String.ofList (List.replicate (Nat.toDigits 10 span.stop.line).length ' ')
  let marked := below.map fun line => "\n" ++ margin ++ " |" ++ String.ofList (h.mark line)
  let pointer := String.ofList (List.replicate (span.stop.col - 1) ' ')
  return margin ++ " |\n" ++ margin ++ " |" ++ String.ofList before ++ " \n" ++
    Decimal.ofNat (span.start.line + 1) ++ " |" ++ String.ofList shown ++ String.join marked ++
    "\n" ++ Decimal.ofNat (span.stop.line + 2) ++ " |" ++ pointer ++ "^--- " ++ message ++
    "\n" ++ margin ++ " |"

end Span

end Monolet
