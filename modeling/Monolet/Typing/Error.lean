import Monolet.Span.Excerpt
import Monolet.Subst.Unify

/-!
# Type errors

Inference fails at a name without a type or where two types cannot be made equal. The error carries the span of
the expression that was being checked.
-/

namespace Monolet

/-- Why an expression has no type, and where. -/
inductive TypeError where
  | unknownVariable (name : String) (span : Span)
  | unification (error : UnifyError) (span : Span)

namespace TypeError

/-- Where inference failed. -/
def span : TypeError → Span
  | unknownVariable _ s | unification _ s => s

/-- The message without its place. -/
def message : TypeError → String
  | unknownVariable name _ => "Unknown variable " ++ name
  | unification error _ => error.message

/-- Is this a mismatch of these two types, in either order? -/
def isMismatchBetween (e : TypeError) (a b : Ty) : Bool :=
  match e with
  | unification error _ => error.isMismatchBetween a b
  | unknownVariable .. => false

/-- The error as an excerpt of its source, or in one line when there is no source. There is no text when its
place does not fit the source. -/
def render (h : Highlight) (source? : Option String) (e : TypeError) : Option String :=
  match source? with
  | some source => e.span.excerpt h source e.message
  | none => some ("Type error: " ++ e.message)

end TypeError

end Monolet
