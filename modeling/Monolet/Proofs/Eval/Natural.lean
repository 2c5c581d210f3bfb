import Monolet.Eval

/-!
# Natural semantics

Plain evaluation by value, as rules over whole evaluations: no loop, no fuel and no limit on nesting. A rule carries the
deepest level that its evaluation reaches, with the expression itself on level 0. Function and argument, the value
of a `let` and the condition of an `if` stand one level deeper than the expression; the body of a closure, the body
of a `let` and the branches of an `if` stand on its own level.

`Natural.settles` says what evaluation with `room` levels makes of such a rule: the same result if the rule stays
within the room, exhausted depth if it does not, and one of the two after finitely many steps. `Expr.explained` is the
way back. Together they relate every finished evaluation to one rule.
-/

namespace Monolet

/-- The scope of a closure in which it is bound to its own name, if it has one. -/
def Scope.bindSelf (ρ : Scope) (self? : Option String) (f : Value) : Scope :=
  match self? with
  | some name => ρ.insert name f
  | none => ρ

/-- In scope `ρ` the expression evaluates to a value or an error, and no part of it stands deeper than level `d`. -/
inductive Natural : Scope → Expr → Nat → Except EvalError Value → Prop where
  | int {ρ : Scope} {n : Int64} {s : Span} : Natural ρ (.int n s) 0 (.ok (.int n))
  | bool {ρ : Scope} {b : Bool} {s : Span} : Natural ρ (.bool b s) 0 (.ok (.bool b))
  | string {ρ : Scope} {text : String} {s : Span} : Natural ρ (.string text s) 0 (.ok (.string text))
  | var {ρ : Scope} {x : Ident} {v : Value} (bound : ρ.get? x.name = some v) : Natural ρ (.var x) 0 (.ok v)
  | unbound {ρ : Scope} {x : Ident} (unbound : ρ.get? x.name = none) :
      Natural ρ (.var x) 0 (.error (.unknownVariable x.name))
  | lam {ρ : Scope} {x : Ident} {body : Expr} {s : Span} :
      Natural ρ (.lam x body s) 0 (.ok (.closure x.name body ρ none))
  | enter {ρ scope : Scope} {f a body : Expr} {s : Span} {x : String} {self? : Option String} {v : Value}
      {d d' d'' : Nat} {r : Except EvalError Value}
      (function : Natural ρ f d (.ok (.closure x body scope self?)))
      (argument : Natural ρ a d' (.ok v))
      (result : Natural ((scope.bindSelf self? (.closure x body scope self?)).insert x v) body d'' r) :
      Natural ρ (.app f a s) (max (d + 1) (max (d' + 1) d'')) r
  | hold {ρ : Scope} {f a : Expr} {s : Span} {p : Primitive} {args : List Value} {v : Value} {d d' : Nat}
      (function : Natural ρ f d (.ok (.primitive p args)))
      (argument : Natural ρ a d' (.ok v))
      (waiting : args.length + 1 < p.arity) :
      Natural ρ (.app f a s) (max (d + 1) (d' + 1)) (.ok (.primitive p (args ++ [v])))
  | run {ρ : Scope} {f a : Expr} {s : Span} {p : Primitive} {args : List Value} {v : Value} {d d' : Nat}
      (function : Natural ρ f d (.ok (.primitive p args)))
      (argument : Natural ρ a d' (.ok v))
      (full : p.arity ≤ args.length + 1) :
      Natural ρ (.app f a s) (max (d + 1) (d' + 1)) (p.run (args ++ [v]))
  | noFunction {ρ : Scope} {f a : Expr} {s : Span} {w v : Value} {d d' : Nat}
      (function : Natural ρ f d (.ok w))
      (argument : Natural ρ a d' (.ok v))
      (other : w.isFunction = false) :
      Natural ρ (.app f a s) (max (d + 1) (d' + 1)) (.error (.notAFunction w))
  | functionError {ρ : Scope} {f a : Expr} {s : Span} {d : Nat} {err : EvalError}
      (function : Natural ρ f d (.error err)) :
      Natural ρ (.app f a s) (d + 1) (.error err)
  | argumentError {ρ : Scope} {f a : Expr} {s : Span} {w : Value} {d d' : Nat} {err : EvalError}
      (function : Natural ρ f d (.ok w))
      (argument : Natural ρ a d' (.error err)) :
      Natural ρ (.app f a s) (max (d + 1) (d' + 1)) (.error err)
  | letIn {ρ : Scope} {x : Ident} {value body : Expr} {s : Span} {v : Value} {d d' : Nat}
      {r : Except EvalError Value}
      (bound : Natural ρ value d (.ok v))
      (result : Natural (ρ.insert x.name v) body d' r) :
      Natural ρ (.letIn false x value body s) (max (d + 1) d') r
  | letRec {ρ scope : Scope} {x : Ident} {value body inner : Expr} {s : Span} {y : String} {self? : Option String}
      {d d' : Nat} {r : Except EvalError Value}
      (bound : Natural ρ value d (.ok (.closure y inner scope self?)))
      (result : Natural (ρ.insert x.name (.closure y inner scope (some x.name))) body d' r) :
      Natural ρ (.letIn true x value body s) (max (d + 1) d') r
  | noClosure {ρ : Scope} {x : Ident} {value body : Expr} {s : Span} {v : Value} {d : Nat}
      (bound : Natural ρ value d (.ok v))
      (other : ∀ y inner scope self?, v ≠ .closure y inner scope self?) :
      Natural ρ (.letIn true x value body s) (d + 1) (.error (.recursiveNonFunction x.name v))
  | valueError {ρ : Scope} {recursive : Bool} {x : Ident} {value body : Expr} {s : Span} {d : Nat}
      {err : EvalError}
      (bound : Natural ρ value d (.error err)) :
      Natural ρ (.letIn recursive x value body s) (d + 1) (.error err)
  | thenBranch {ρ : Scope} {c t e : Expr} {s : Span} {d d' : Nat} {r : Except EvalError Value}
      (condition : Natural ρ c d (.ok (.bool true)))
      (result : Natural ρ t d' r) :
      Natural ρ (.cond c t e s) (max (d + 1) d') r
  | elseBranch {ρ : Scope} {c t e : Expr} {s : Span} {d d' : Nat} {r : Except EvalError Value}
      (condition : Natural ρ c d (.ok (.bool false)))
      (result : Natural ρ e d' r) :
      Natural ρ (.cond c t e s) (max (d + 1) d') r
  | noBool {ρ : Scope} {c t e : Expr} {s : Span} {v : Value} {d : Nat}
      (condition : Natural ρ c d (.ok v))
      (other : ∀ b, v ≠ .bool b) :
      Natural ρ (.cond c t e s) (d + 1) (.error (.expectedBool v))
  | conditionError {ρ : Scope} {c t e : Expr} {s : Span} {d : Nat} {err : EvalError}
      (condition : Natural ρ c d (.error err)) :
      Natural ρ (.cond c t e s) (d + 1) (.error err)

/-! ## Calls and bindings as equations -/

namespace Value

theorem call_closure (x : String) (body : Expr) (scope : Scope) (self? : Option String) (v : Value) :
    (closure x body scope self?).call v =
      .ok (.enter ((scope.bindSelf self? (closure x body scope self?)).insert x v) body) := by
  cases self? <;> rfl

theorem call_waiting {p : Primitive} {args : List Value} (v : Value) (h : args.length + 1 < p.arity) :
    (primitive p args).call v = .ok (.value (primitive p (args ++ [v]))) := by
  rw [call, if_pos (by simpa using h)]

theorem call_full {p : Primitive} {args : List Value} (v : Value) (h : p.arity ≤ args.length + 1) :
    (primitive p args).call v = (p.run (args ++ [v])).map .value := by
  rw [call, if_neg (by simpa using h)]

theorem call_other {w : Value} (v : Value) (h : w.isFunction = false) : w.call v = .error (.notAFunction w) := by
  cases w with
  | closure | primitive => cases h
  | _ => rfl

theorem nameSelf_other {v : Value} (name : String) (h : ∀ y inner scope self?, v ≠ closure y inner scope self?) :
    v.nameSelf name = .error (.recursiveNonFunction name v) := by
  cases v with
  | closure y inner scope self? => exact absurd rfl (h y inner scope self?)
  | _ => rfl

theorem asBool_other {v : Value} (h : ∀ b, v ≠ bool b) : v.asBool = .error (.expectedBool v) := by
  cases v with
  | bool b => exact absurd rfl (h b)
  | _ => rfl

end Value

/-- Go on with what a call comes down to, with `room` levels for a body. -/
def Call.resume (fuel room : Nat) : Call → Outcome Value
  | .value v => .done v
  | .enter scope body => body.evalWithin fuel room scope

/-- What a `let` binds to its name when its value is `v`. -/
def Value.bound (recursive : Bool) (name : String) (v : Value) : Except EvalError Value :=
  if recursive then v.nameSelf name else .ok v

namespace Expr

variable (fuel room : Nat) (ρ : Scope) (s : Span)

theorem evalWithin_app (f a : Expr) :
    (app f a s).evalWithin (fuel + 1) (room + 1) ρ =
      f.evalWithin fuel room ρ >>= fun w => a.evalWithin fuel room ρ >>= fun v =>
        Outcome.ofExcept (w.call v) >>= Call.resume fuel (room + 1) := by
  rw [evalWithin]
  rfl

theorem evalWithin_letIn (recursive : Bool) (x : Ident) (value body : Expr) :
    (letIn recursive x value body s).evalWithin (fuel + 1) (room + 1) ρ =
      value.evalWithin fuel room ρ >>= fun v => Outcome.ofExcept (v.bound recursive x.name) >>= fun w =>
        body.evalWithin fuel (room + 1) (ρ.insert x.name w) := by
  rw [evalWithin]
  cases recursive <;> rfl

theorem evalWithin_cond (c t e : Expr) :
    (cond c t e s).evalWithin (fuel + 1) (room + 1) ρ =
      c.evalWithin fuel room ρ >>= fun v => Outcome.ofExcept v.asBool >>= fun b =>
        (if b then t else e).evalWithin fuel (room + 1) ρ := by
  rw [evalWithin]
  congr 1
  funext v
  congr 1
  funext b
  cases b <;> rfl

end Expr

/-! ## From rules to evaluation -/

namespace Outcome

variable {room d d' : Nat} {v : Value} {r : Except EvalError Value} {err : EvalError} {f : Value → Outcome Value}

/-- What a result comes to that needs levels 0 to `d` when there are `room` of them. -/
def capped (room d : Nat) (r : Except EvalError Value) : Outcome Value :=
  if d < room then ofExcept r else failed .tooDeep

theorem capped_zero (room : Nat) (r : Except EvalError Value) : capped (room + 1) 0 r = ofExcept r := by
  rw [capped, if_pos room.succ_pos]

/-- What comes after a part one level deeper adds its own levels and its own result. -/
theorem capped_ok_bind (h : f v = capped (room + 1) d' r) :
    (capped room d (.ok v) >>= f) = capped (room + 1) (max (d + 1) d') r := by
  by_cases fits : d < room
  · rw [capped, if_pos fits, ofExcept, done_bind, h, capped, capped]
    congr 1
    simp only [eq_iff_iff]
    omega
  · rw [capped, if_neg fits, failed_bind, capped, if_neg (by omega)]

theorem capped_ok_bind_at_once (h : f v = ofExcept r) :
    (capped room d (.ok v) >>= f) = capped (room + 1) (d + 1) r := by
  rw [← capped_zero room] at h
  rw [capped_ok_bind h, Nat.max_zero]

/-- An error in a part one level deeper is the result. -/
theorem capped_error_bind : (capped room d (.error err) >>= f) = capped (room + 1) (d + 1) (.error err) := by
  by_cases fits : d < room
  · rw [capped, if_pos fits, capped, if_pos (by omega)]
    rfl
  · rw [capped, if_neg fits, capped, if_neg (by omega)]
    rfl

end Outcome

namespace Expr

open Outcome (capped capped_zero capped_ok_bind capped_ok_bind_at_once capped_error_bind)

variable {ρ : Scope} {e part : Expr} {v : Value} {d d' : Nat} {r : Except EvalError Value} {err : EvalError}
  {rest : Nat → Nat → Value → Outcome Value}

/-- However many levels there are, from some amount of fuel on evaluation comes to the result `r`, which needs
levels 0 to `d`, or to exhausted depth if there are fewer. -/
def Settles (ρ : Scope) (e : Expr) (d : Nat) (r : Except EvalError Value) : Prop :=
  ∀ room, ∃ n, ∀ fuel, n ≤ fuel → e.evalWithin fuel room ρ = capped room d r

/-- With no room there is nothing to evaluate; with some, it is enough to look at one step. -/
theorem settles_of_step
    (h : ∀ room, ∃ n, ∀ fuel, n ≤ fuel → e.evalWithin (fuel + 1) (room + 1) ρ = capped (room + 1) d r) :
    e.Settles ρ d r := by
  intro room
  cases room with
  | zero =>
    refine ⟨1, fun fuel le => ?_⟩
    obtain ⟨fuel, rfl⟩ : ∃ k, fuel = k + 1 := ⟨fuel - 1, by omega⟩
    rw [evalWithin, capped, if_neg d.not_lt_zero]
  | succ room =>
    obtain ⟨n, hn⟩ := h room
    refine ⟨n + 1, fun fuel le => ?_⟩
    obtain ⟨fuel, rfl⟩ : ∃ k, fuel = k + 1 := ⟨fuel - 1, by omega⟩
    exact hn fuel (by omega)

theorem settles_at_once (h : ∀ fuel room, e.evalWithin (fuel + 1) (room + 1) ρ = .ofExcept r) : e.Settles ρ 0 r := by
  refine settles_of_step fun room => ⟨0, fun fuel _ => ?_⟩
  rw [h, capped_zero]

/-- An expression that evaluates a part one level deeper and goes on with its value. -/
theorem Settles.bind (part_value : part.Settles ρ d (.ok v))
    (step : ∀ fuel room, e.evalWithin (fuel + 1) (room + 1) ρ = part.evalWithin fuel room ρ >>= rest fuel room)
    (rest_value : ∀ room, ∃ n, ∀ fuel, n ≤ fuel → rest fuel room v = capped (room + 1) d' r) :
    e.Settles ρ (max (d + 1) d') r := by
  refine settles_of_step fun room => ?_
  obtain ⟨n, hp⟩ := part_value room
  obtain ⟨m, hr⟩ := rest_value room
  refine ⟨max n m, fun fuel le => ?_⟩
  rw [step, hp fuel (by omega)]
  exact capped_ok_bind (hr fuel (by omega))

theorem Settles.bind_at_once (part_value : part.Settles ρ d (.ok v))
    (step : ∀ fuel room, e.evalWithin (fuel + 1) (room + 1) ρ = part.evalWithin fuel room ρ >>= rest fuel room)
    (rest_value : ∀ fuel room, rest fuel room v = .ofExcept r) : e.Settles ρ (d + 1) r := by
  rw [← Nat.max_zero (d + 1)]
  refine part_value.bind step fun room => ⟨0, fun fuel _ => ?_⟩
  rw [rest_value, capped_zero]

theorem Settles.bind_error (part_error : part.Settles ρ d (.error err))
    (step : ∀ fuel room, e.evalWithin (fuel + 1) (room + 1) ρ = part.evalWithin fuel room ρ >>= rest fuel room) :
    e.Settles ρ (d + 1) (.error err) := by
  refine settles_of_step fun room => ?_
  obtain ⟨n, hp⟩ := part_error room
  refine ⟨n, fun fuel le => ?_⟩
  rw [step, hp fuel le, capped_error_bind]

/-- An application whose call needs no body. -/
theorem Settles.call {f a : Expr} {s : Span} {w : Value} (function : f.Settles ρ d (.ok w))
    (argument : a.Settles ρ d' (.ok v)) (called : w.call v = r.map .value) :
    (app f a s).Settles ρ (max (d + 1) (d' + 1)) r := by
  refine function.bind (fun fuel room => evalWithin_app fuel room ..) fun room => ?_
  obtain ⟨n, ha⟩ := argument room
  refine ⟨n, fun fuel le => ?_⟩
  rw [ha fuel le]
  apply capped_ok_bind_at_once
  rw [called]
  cases r <;> rfl

end Expr

open Monolet.Expr Monolet.Outcome in
/-- What a rule says is what evaluation comes to, as far as there is room. -/
theorem Natural.settles {ρ : Scope} {e : Expr} {d : Nat} {r : Except EvalError Value} (h : Natural ρ e d r) :
    e.Settles ρ d r := by
  induction h with
  | int | bool | string | lam => exact settles_at_once fun fuel room => rfl
  | var bound => exact settles_at_once fun fuel room => by rw [evalWithin, bound]; rfl
  | unbound unbound => exact settles_at_once fun fuel room => by rw [evalWithin, unbound]; rfl
  | enter _ _ _ ihf iha ihb =>
    refine ihf.bind (fun fuel room => evalWithin_app fuel room ..) fun room => ?_
    obtain ⟨n, ha⟩ := iha room
    obtain ⟨m, hb⟩ := ihb (room + 1)
    refine ⟨max n m, fun fuel le => ?_⟩
    rw [ha fuel (by omega)]
    apply capped_ok_bind
    rw [Value.call_closure]
    exact hb fuel (by omega)
  | hold _ _ waiting ihf iha => exact ihf.call iha (Value.call_waiting _ waiting)
  | run _ _ full ihf iha => exact ihf.call iha (Value.call_full _ full)
  | noFunction _ _ other ihf iha => exact ihf.call iha (Value.call_other _ other)
  | functionError _ ihf => exact ihf.bind_error fun fuel room => evalWithin_app fuel room ..
  | argumentError _ _ ihf iha =>
    refine ihf.bind (fun fuel room => evalWithin_app fuel room ..) fun room => ?_
    obtain ⟨n, ha⟩ := iha room
    refine ⟨n, fun fuel le => ?_⟩
    rw [ha fuel le, capped_error_bind]
  | letIn _ _ ihv ihb => exact ihv.bind (fun fuel room => evalWithin_letIn fuel room ..) fun room => ihb (room + 1)
  | letRec _ _ ihv ihb => exact ihv.bind (fun fuel room => evalWithin_letIn fuel room ..) fun room => ihb (room + 1)
  | noClosure _ other ihv =>
    refine ihv.bind_at_once (fun fuel room => evalWithin_letIn fuel room ..) fun fuel room => ?_
    rw [Value.bound, if_pos rfl, Value.nameSelf_other _ other]
    rfl
  | valueError _ ihv => exact ihv.bind_error fun fuel room => evalWithin_letIn fuel room ..
  | thenBranch _ _ ihc iht => exact ihc.bind (fun fuel room => evalWithin_cond fuel room ..) fun room => iht (room + 1)
  | elseBranch _ _ ihc ihe => exact ihc.bind (fun fuel room => evalWithin_cond fuel room ..) fun room => ihe (room + 1)
  | noBool _ other ihc =>
    refine ihc.bind_at_once (fun fuel room => evalWithin_cond fuel room ..) fun fuel room => ?_
    rw [Value.asBool_other other]
    rfl
  | conditionError _ ihc => exact ihc.bind_error fun fuel room => evalWithin_cond fuel room ..

/-! ## From evaluation to rules -/

namespace Outcome

variable {α β : Type}

theorem ofExcept_inj {x y : Except EvalError α} (h : ofExcept x = ofExcept y) : x = y := by
  cases x <;> cases y <;> cases h <;> rfl

/-- A finished sequence has failed in its first part, or finished in its second. -/
theorem bind_eq_ofExcept {x : Outcome α} {f : α → Outcome β} {r : Except EvalError β}
    (h : (x >>= f) = ofExcept r) :
    (∃ err, x = ofExcept (.error err) ∧ r = .error err) ∨ ∃ a, x = ofExcept (.ok a) ∧ f a = ofExcept r := by
  cases x with
  | done a => exact .inr ⟨a, rfl, h⟩
  | failed err => exact .inl ⟨err, rfl, (ofExcept_inj (x := .error err) h).symm⟩
  | unfinished => cases r <;> cases h

end Outcome

/-- Evaluations with this much fuel that finish with anything but exhausted depth follow a rule that keeps to the
levels there are. -/
def Explained (fuel : Nat) : Prop :=
  ∀ {room : Nat} {ρ : Scope} {e : Expr} {r : Except EvalError Value},
    e.evalWithin fuel room ρ = .ofExcept r → r ≠ .error .tooDeep → ∃ d, d < room ∧ Natural ρ e d r

namespace Explained

open Outcome (bind_eq_ofExcept ofExcept_inj)

variable {fuel room : Nat} {ρ : Scope} {s : Span} {r : Except EvalError Value}

/-- The rule for an application whose function and argument have values. -/
theorem call (ih : Explained fuel) {f a : Expr} {w v : Value} {d d' : Nat}
    (function : Natural ρ f d (.ok w)) (argument : Natural ρ a d' (.ok v)) (lt : d < room) (lt' : d' < room)
    (finished : (Outcome.ofExcept (w.call v) >>= Call.resume fuel (room + 1)) = .ofExcept r)
    (shallow : r ≠ .error .tooDeep) : ∃ d, d < room + 1 ∧ Natural ρ (.app f a s) d r := by
  have at_once {r' : Except EvalError Value} (rule : Natural ρ (.app f a s) (max (d + 1) (d' + 1)) r')
      (called : w.call v = r'.map .value) : ∃ d, d < room + 1 ∧ Natural ρ (.app f a s) d r := by
    have same : Outcome.ofExcept r' = .ofExcept r := by
      rw [← finished, called]
      cases r' <;> rfl
    exact ⟨max (d + 1) (d' + 1), by omega, ofExcept_inj same ▸ rule⟩
  cases w with
  | closure x body scope self? =>
    rw [Value.call_closure] at finished
    obtain ⟨d'', lt'', result⟩ := ih finished shallow
    exact ⟨max (d + 1) (max (d' + 1) d''), by omega, .enter function argument result⟩
  | primitive p args =>
    by_cases waiting : args.length + 1 < p.arity
    · exact at_once (.hold function argument waiting) (Value.call_waiting v waiting)
    · have full : p.arity ≤ args.length + 1 := by omega
      exact at_once (.run function argument full) (Value.call_full v full)
  | int | bool | string => exact at_once (.noFunction function argument rfl) (Value.call_other v rfl)

theorem app (ih : Explained fuel) {f a : Expr}
    (finished : (Expr.app f a s).evalWithin (fuel + 1) (room + 1) ρ = .ofExcept r) (shallow : r ≠ .error .tooDeep) :
    ∃ d, d < room + 1 ∧ Natural ρ (.app f a s) d r := by
  rw [Expr.evalWithin_app] at finished
  obtain ⟨err, function, rfl⟩ | ⟨w, function, finished⟩ := bind_eq_ofExcept finished
  · obtain ⟨d, lt, function⟩ := ih function shallow
    exact ⟨d + 1, by omega, .functionError function⟩
  · obtain ⟨d, lt, function⟩ := ih function nofun
    obtain ⟨err, argument, rfl⟩ | ⟨v, argument, finished⟩ := bind_eq_ofExcept finished
    · obtain ⟨d', lt', argument⟩ := ih argument shallow
      exact ⟨max (d + 1) (d' + 1), by omega, .argumentError function argument⟩
    · obtain ⟨d', lt', argument⟩ := ih argument nofun
      exact ih.call function argument lt lt' finished shallow

theorem letIn (ih : Explained fuel) {recursive : Bool} {x : Ident} {value body : Expr}
    (finished : (Expr.letIn recursive x value body s).evalWithin (fuel + 1) (room + 1) ρ = .ofExcept r)
    (shallow : r ≠ .error .tooDeep) : ∃ d, d < room + 1 ∧ Natural ρ (.letIn recursive x value body s) d r := by
  rw [Expr.evalWithin_letIn] at finished
  obtain ⟨err, bound, rfl⟩ | ⟨v, bound, finished⟩ := bind_eq_ofExcept finished
  · obtain ⟨d, lt, bound⟩ := ih bound shallow
    exact ⟨d + 1, by omega, .valueError bound⟩
  obtain ⟨d, lt, bound⟩ := ih bound nofun
  cases recursive with
  | false =>
    obtain ⟨d', lt', result⟩ := @ih (room + 1) _ _ _ finished shallow
    exact ⟨max (d + 1) d', by omega, .letIn bound result⟩
  | true =>
    by_cases closure : ∃ y inner scope self?, v = .closure y inner scope self?
    · obtain ⟨y, inner, scope, self?, rfl⟩ := closure
      obtain ⟨d', lt', result⟩ := @ih (room + 1) _ _ _ finished shallow
      exact ⟨max (d + 1) d', by omega, .letRec bound result⟩
    · have other : ∀ y inner scope self?, v ≠ .closure y inner scope self? := by
        rintro y inner scope self? rfl
        exact closure ⟨y, inner, scope, self?, rfl⟩
      rw [Value.bound, if_pos rfl, Value.nameSelf_other _ other] at finished
      obtain rfl := ofExcept_inj (x := .error _) finished
      exact ⟨d + 1, by omega, .noClosure bound other⟩

theorem cond (ih : Explained fuel) {c t e : Expr}
    (finished : (Expr.cond c t e s).evalWithin (fuel + 1) (room + 1) ρ = .ofExcept r)
    (shallow : r ≠ .error .tooDeep) : ∃ d, d < room + 1 ∧ Natural ρ (.cond c t e s) d r := by
  rw [Expr.evalWithin_cond] at finished
  obtain ⟨err, condition, rfl⟩ | ⟨v, condition, finished⟩ := bind_eq_ofExcept finished
  · obtain ⟨d, lt, condition⟩ := ih condition shallow
    exact ⟨d + 1, by omega, .conditionError condition⟩
  obtain ⟨d, lt, condition⟩ := ih condition nofun
  by_cases isBool : ∃ b, v = .bool b
  · obtain ⟨b, rfl⟩ := isBool
    obtain ⟨d', lt', result⟩ := @ih (room + 1) _ _ _ finished shallow
    cases b with
    | true => exact ⟨max (d + 1) d', by omega, .thenBranch condition result⟩
    | false => exact ⟨max (d + 1) d', by omega, .elseBranch condition result⟩
  · have other : ∀ b, v ≠ .bool b := by
      rintro b rfl
      exact isBool ⟨b, rfl⟩
    rw [Value.asBool_other other] at finished
    obtain rfl := ofExcept_inj (x := .error _) finished
    exact ⟨d + 1, by omega, .noBool condition other⟩

end Explained

open Outcome in
theorem Expr.explained (fuel : Nat) : Explained fuel := by
  induction fuel with
  | zero =>
    intro room ρ e r finished
    rw [evalWithin] at finished
    cases r <;> cases finished
  | succ fuel ih =>
    intro room ρ e r finished shallow
    cases room with
    | zero =>
      rw [evalWithin] at finished
      exact absurd (ofExcept_inj (x := .error .tooDeep) finished).symm shallow
    | succ room =>
      have at_once {r' : Except EvalError Value} (rule : Natural ρ e 0 r') (same : ofExcept r' = ofExcept r) :
          ∃ d, d < room + 1 ∧ Natural ρ e d r := ⟨0, room.succ_pos, ofExcept_inj same ▸ rule⟩
      cases e with
      | int n s => exact at_once .int finished
      | bool b s => exact at_once .bool finished
      | string text s => exact at_once .string finished
      | lam x body s => exact at_once .lam finished
      | var x =>
        rw [evalWithin] at finished
        cases bound : ρ.get? x.name with
        | none =>
          rw [bound] at finished
          exact at_once (.unbound bound) finished
        | some v =>
          rw [bound] at finished
          exact at_once (.var bound) finished
      | app f a s => exact ih.app finished shallow
      | letIn recursive x value body s => exact ih.letIn finished shallow
      | cond c t e s => exact ih.cond finished shallow

/-- **Evaluation refines the natural semantics.** A finished evaluation that has not run out of depth has the result
that the rules give. What the rules give without passing the deepest level, evaluation ends with. -/
theorem Expr.eval_refines_natural (ρ : Scope) (e : Expr) (r : Except EvalError Value) :
    (∀ fuel, e.eval fuel ρ = .ofExcept r → r ≠ .error .tooDeep → ∃ d, d ≤ maxDepth ∧ Natural ρ e d r) ∧
      ∀ d, d ≤ maxDepth → Natural ρ e d r → ∃ n, ∀ fuel, n ≤ fuel → e.eval fuel ρ = .ofExcept r := by
  refine ⟨fun fuel finished shallow => ?_, fun d le rule => ?_⟩
  · obtain ⟨d, lt, rule⟩ := Expr.explained fuel finished shallow
    exact ⟨d, Nat.le_of_lt_succ lt, rule⟩
  · obtain ⟨n, settled⟩ := rule.settles fullRoom
    have fits : d < fullRoom := Nat.lt_succ_of_le le
    refine ⟨n, fun fuel more => ?_⟩
    rw [eval, settled fuel more, Outcome.capped, if_pos fits]

/-- `let rec f = \n -> if int_equals n 0 then add else f (sub n 1) in f 2 3` -/
def Expr.countThenAdd : Expr :=
  .letIn true ⟨"f", {}⟩
    (.lam ⟨"n", {}⟩
      (.cond (.apps (.var ⟨"int_equals", {}⟩) [.var ⟨"n", {}⟩, .int 0 {}])
        (.var ⟨"add", {}⟩)
        (.app (.var ⟨"f", {}⟩) (.apps (.var ⟨"sub", {}⟩) [.var ⟨"n", {}⟩, .int 1 {}]) {}) {}) {})
    (.apps (.var ⟨"f", {}⟩) [.int 2 {}, .int 3 {}]) {}

theorem Expr.eval_refines_natural_countThenAdd :
    countThenAdd.eval 20 .prelude = .done (.primitive .add [.int 3]) ∧
      (∃ d, d ≤ maxDepth ∧ Natural .prelude countThenAdd d (.ok (.primitive .add [.int 3]))) ∧
        ∃ n, ∀ fuel, n ≤ fuel → countThenAdd.eval fuel .prelude = .done (.primitive .add [.int 3]) := by
  have done : countThenAdd.eval 20 .prelude = .done (.primitive .add [.int 3]) := rfl
  obtain ⟨rules, evaluation⟩ := Expr.eval_refines_natural .prelude countThenAdd (.ok (.primitive .add [.int 3]))
  obtain ⟨d, le, rule⟩ := rules 20 done nofun
  exact ⟨done, ⟨d, le, rule⟩, evaluation d le rule⟩

end Monolet
