import Monolet.Text.Decimal

/-!
# Positions in a source text

A position is a line and a byte column, both counted from zero. A span runs from its start up to but
not including its stop. Nodes that no source text stands behind carry the default span, all zeros.
-/

namespace Monolet

/-- A line and a byte column, both from zero. -/
structure Pos where
  line : Nat := 0
  col : Nat := 0
deriving DecidableEq, Inhabited

/-- A stretch of source text, from `start` up to `stop`. -/
structure Span where
  start : Pos := {}
  stop : Pos := {}
deriving DecidableEq, Inhabited

namespace Span

/-- From the start of the first span to the end of the second. -/
def merge (first second : Span) : Span := ⟨first.start, second.stop⟩

/-- The span as `line:column-line:column`. -/
def text (s : Span) : String :=
  Decimal.ofNat s.start.line ++ ":" ++ Decimal.ofNat s.start.col ++ "-" ++
    Decimal.ofNat s.stop.line ++ ":" ++ Decimal.ofNat s.stop.col

end Span

end Monolet
