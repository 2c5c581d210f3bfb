import Monolet.Value

/-!
# Evaluation

Evaluation is by value: the function, then the argument, then the body of the closure in its own scope. The
function and argument of an application, the value of a `let` and the condition of an `if` are evaluated one
level deeper than the expression they belong to; the body of a closure, the body of a `let` and the branches of
an `if` stay on its level, so that a loop of such steps needs no depth. `evalWithin` takes the number of levels
left as `room`.

Not every evaluation ends. `fuel` bounds the number of steps along each path of an evaluation, and an evaluation
that needs more is `unfinished`, which is neither a value nor an error.
-/

namespace Monolet

/-- What became of an evaluation: a result, an error, or nothing yet when the fuel ran out. -/
inductive Outcome (α : Type) where
  | done (a : α)
  | failed (e : EvalError)
  | unfinished

namespace Outcome

variable {α β : Type}

/-- Go on with the result. -/
@[inline] def bind (x : Outcome α) (f : α → Outcome β) : Outcome β :=
  match x with
  | done a => f a
  | failed e => failed e
  | unfinished => unfinished

instance : Monad Outcome where
  pure := done
  bind := bind

@[simp] theorem done_bind (a : α) (f : α → Outcome β) : (done a >>= f) = f a := rfl

@[simp] theorem failed_bind (e : EvalError) (f : α → Outcome β) : (failed e >>= f) = failed e := rfl

@[simp] theorem unfinished_bind (f : α → Outcome β) : (unfinished >>= f) = unfinished := rfl

/-- An outcome that is there at once. -/
def ofExcept : Except EvalError α → Outcome α
  | .ok a => done a
  | .error e => failed e

end Outcome

/-- Run an operation on its arguments. -/
def Primitive.run : Primitive → List Value → Except EvalError Value
  | add, [x, y] => return .int ((← x.asInt) + (← y.asInt))
  | sub, [x, y] => return .int ((← x.asInt) - (← y.asInt))
  | intEquals, [x, y] => return .bool ((← x.asInt) = (← y.asInt))
  | concat, [x, y] => return .string ((← x.asString) ++ (← y.asString))
  | intToString, [x] => return .string (Decimal.ofInt (← x.asInt).toInt)
  | p, args => throw (.notAFunction (.primitive p args))

/-- What a call comes down to: a value, or an expression to evaluate in a scope. -/
inductive Call where
  | value (v : Value)
  | enter (scope : Scope) (body : Expr)

namespace Value

/-- Call a value with one argument. -/
def call (f a : Value) : Except EvalError Call :=
  match f with
  | closure binder body scope self? =>
    let own := match self? with
      | some name => scope.insert name f
      | none => scope
    .ok (.enter (own.insert binder a) body)
  | primitive p args =>
    let held := args ++ [a]
    if held.length < p.arity then .ok (.value (primitive p held))
    else (p.run held).map .value
  | _ => .error (.notAFunction f)

/-- The value of a recursive binding: a closure, which learns its name. -/
def nameSelf (name : String) : Value → Except EvalError Value
  | closure binder body scope _ => .ok (closure binder body scope (some name))
  | v => .error (.recursiveNonFunction name v)

end Value

/-- Evaluate an expression with `room` levels left. -/
def Expr.evalWithin (fuel room : Nat) (ρ : Scope) (e : Expr) : Outcome Value :=
  match fuel, room with
  | 0, _ => .unfinished
  | _ + 1, 0 => .failed .tooDeep
  | fuel + 1, room + 1 =>
    match e with
    | .int n _ => .done (.int n)
    | .bool b _ => .done (.bool b)
    | .string s _ => .done (.string s)
    | .var x =>
      match ρ.get? x.name with
      | some v => .done v
      | none => .failed (.unknownVariable x.name)
    | .lam x body _ => .done (.closure x.name body ρ none)
    | .app f a _ => do
      let fv ← f.evalWithin fuel room ρ
      let av ← a.evalWithin fuel room ρ
      match ← Outcome.ofExcept (fv.call av) with
      | .value v => .done v
      | .enter scope body => body.evalWithin fuel (room + 1) scope
    | .letIn recursive x value body _ => do
      let v ← value.evalWithin fuel room ρ
      let v ← if recursive then Outcome.ofExcept (v.nameSelf x.name) else .done v
      body.evalWithin fuel (room + 1) (ρ.insert x.name v)
    | .cond c t e _ => do
      let v ← c.evalWithin fuel room ρ
      match ← Outcome.ofExcept v.asBool with
      | true => t.evalWithin fuel (room + 1) ρ
      | false => e.evalWithin fuel (room + 1) ρ

/-- The room of an expression that is nested in no other. -/
def fullRoom : Nat := maxDepth + 1

/-- Evaluate an expression on the outermost level. -/
def Expr.eval (fuel : Nat) (ρ : Scope) (e : Expr) : Outcome Value := e.evalWithin fuel fullRoom ρ

/-- Call a value and evaluate the body, if there is one, on the outermost level. -/
def Value.apply (fuel : Nat) (f a : Value) : Outcome Value := do
  match ← Outcome.ofExcept (f.call a) with
  | .value v => .done v
  | .enter scope body => body.eval fuel scope

end Monolet
