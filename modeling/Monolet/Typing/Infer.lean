import Monolet.Expr.Basic
import Monolet.Primitive
import Monolet.Typing.Error

/-!
# Type inference

Inference walks an expression once, hands out fresh unknowns and unifies as it goes. The state, solutions
found and unknowns handed out, survives a failure. A `let` gives its name one type for all its uses; a
recursive one gives its name an unknown while its value is inferred.
-/

namespace Monolet

/-- The solutions found so far and the number of unknowns handed out. -/
structure CheckState where
  subst : Subst := .empty
  supply : Nat := 0
deriving DecidableEq

/-- Checking: it works on a state and yields a value or an error, and the state in either case. -/
abbrev Check (ε : Type) := EStateM ε CheckState

namespace Check

/-- Hand out the next unknown. -/
def fresh {ε : Type} : Check ε Ty := fun s =>
  .ok (.unknown (s.supply + 1)) { s with supply := s.supply + 1 }

/-- Resolve a type by the solutions found so far. -/
def zonk {ε : Type} (ty : Ty) : Check ε Ty := fun s => .ok (s.subst.apply ty) s

/-- Make two types equal. -/
def unify (left right : Ty) : Check UnifyError Unit := fun s =>
  match Subst.unify left right s.subst with
  | .ok () subst => .ok () { s with subst }
  | .error e subst => .error e { s with subst }

/-- Make two types equal on behalf of the expression at `span`. -/
def unifyAt (span : Span) (left right : Ty) : Check TypeError Unit :=
  (unify left right).adaptExcept (.unification · span)

/-- Infer the type of an expression; unknowns in it may have solutions. -/
def infer (Γ : TypeEnv) : Expr → Check TypeError Ty
  | .int .. => return .int
  | .bool .. => return .bool
  | .string .. => return .string
  | .var x =>
    match Γ.get? x.name with
    | some ty => return ty
    | none => throw (.unknownVariable x.name x.span)
  | .lam x body _ => do
    let arg ← fresh
    let res ← infer (Γ.insert x.name arg) body
    return .fn arg res
  | .app f a span => do
    let fnTy ← infer Γ f
    let arg ← infer Γ a
    let res ← fresh
    unifyAt span fnTy (.fn arg res)
    return res
  | .letIn false x value body _ => do
    let ty ← zonk (← infer Γ value)
    infer (Γ.insert x.name ty) body
  | .letIn true x value body span => do
    let placeholder ← fresh
    let ty ← infer (Γ.insert x.name placeholder) value
    unifyAt span placeholder ty
    infer (Γ.insert x.name (← zonk placeholder)) body
  | .cond c t e span => do
    unifyAt c.span (← infer Γ c) .bool
    let ty ← infer Γ t
    unifyAt span ty (← infer Γ e)
    zonk ty

end Check

/-- The type of an expression, resolved. -/
def Expr.infer (Γ : TypeEnv) (e : Expr) : Except TypeError Ty :=
  match (Check.infer Γ e >>= Check.zonk) {} with
  | .ok ty _ => .ok ty
  | .error err _ => .error err

end Monolet
