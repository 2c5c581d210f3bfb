import Monolet.Ascending
import Monolet.Span.Basic

/-!
# Expressions

Lambda terms with integers, booleans, strings, `let` and `if`. Every node and every binder carries the span
it was read from. Spans are for messages only: two expressions are the same when they are equal after
`erase`, which forgets all spans.
-/

namespace Monolet

/-- A name and where it stands. -/
structure Ident where
  name : String
  span : Span := {}
deriving DecidableEq

/-- Expressions. A `let` that is marked recursive binds its name in its value too. -/
inductive Expr where
  | int (value : Int64) (span : Span)
  | bool (value : Bool) (span : Span)
  | string (value : String) (span : Span)
  | var (x : Ident)
  | lam (x : Ident) (body : Expr) (span : Span)
  | app (f a : Expr) (span : Span)
  | letIn (recursive : Bool) (x : Ident) (value body : Expr) (span : Span)
  | cond (c t e : Expr) (span : Span)
deriving DecidableEq

namespace Expr

/-- Where the expression stands. -/
def span : Expr → Span
  | int _ s | bool _ s | string _ s | lam _ _ s | app _ _ s | letIn _ _ _ _ s | cond _ _ _ s => s
  | var x => x.span

/-- The expression without its spans. -/
def erase : Expr → Expr
  | int n _ => int n {}
  | bool b _ => bool b {}
  | string s _ => string s {}
  | var x => var ⟨x.name, {}⟩
  | lam x body _ => lam ⟨x.name, {}⟩ body.erase {}
  | app f a _ => app f.erase a.erase {}
  | letIn r x value body _ => letIn r ⟨x.name, {}⟩ value.erase body.erase {}
  | cond c t e _ => cond c.erase t.erase e.erase {}

/-- Are two expressions the same when spans are ignored? -/
def same (a b : Expr) : Bool := a.erase = b.erase

/-- A function applied to several arguments, one after the other, without spans of its own. -/
def apps (f : Expr) (args : List Expr) : Expr :=
  args.foldl (fun g a => app g a {}) f

/-- The names that occur free, in ascending order. -/
def freeVars : Expr → List String
  | int .. | bool .. | string .. => []
  | var x => [x.name]
  | lam x body _ => Ascending.remove x.name body.freeVars
  | app f a _ => Ascending.union f.freeVars a.freeVars
  | letIn r x value body _ =>
    let inValue := if r then Ascending.remove x.name value.freeVars else value.freeVars
    Ascending.union inValue (Ascending.remove x.name body.freeVars)
  | cond c t e _ => Ascending.union c.freeVars (Ascending.union t.freeVars e.freeVars)

end Expr

end Monolet
