import Mathlib
import Monolet.Proofs.Eval.Safety
import Monolet.Proofs.Eval.Scoping

/-!
# Operations run on as many arguments as they take

An operation holds arguments until it has as many as it takes, and then it is run. It has a case for any other number of
arguments, which fails with an error of its own (`Primitive.run_of_ne`). Evaluation never comes to that case: as long as
every operation around holds fewer arguments than it takes, one more is at most enough.

The condition is on all values that can be got hold of, also on those that closures have captured and that operations hold
(`Value.Unsaturated`). What evaluation does on its way is a relation between activities (`Activity.Starts`). A step of it
keeps the condition (`Activity.Starts.sound`), and so do all steps that follow each other, whether the evaluation ends or
not.
-/

namespace Monolet

open Relation

/-! ## The condition -/

/-- All operations in the value hold fewer arguments than they take. -/
inductive Value.Unsaturated : Value → Prop where
  | int {n : Int64} : Unsaturated (.int n)
  | bool {b : Bool} : Unsaturated (.bool b)
  | string {s : String} : Unsaturated (.string s)
  | closure {binder : String} {body : Expr} {scope : Scope} {self? : Option String}
      (captured : ∀ x v, scope.get? x = some v → Unsaturated v) : Unsaturated (.closure binder body scope self?)
  | primitive {p : Primitive} {args : List Value} (waiting : args.length < p.arity)
      (held : ∀ v ∈ args, Unsaturated v) : Unsaturated (.primitive p args)

/-- All operations in the values of the scope hold fewer arguments than they take. -/
def Scope.Unsaturated (ρ : Scope) : Prop := ∀ x v, ρ.get? x = some v → v.Unsaturated

namespace Scope.Unsaturated

variable {ρ : Scope} {v : Value}

theorem insert (h : ρ.Unsaturated) (name : String) (hv : v.Unsaturated) : Scope.Unsaturated (ρ.insert name v) := by
  intro y w found
  rw [NameMap.get?_insert] at found
  split at found
  · cases found
    exact hv
  · exact h y w found

theorem bindSelf (h : ρ.Unsaturated) (self? : Option String) (hv : v.Unsaturated) :
    (ρ.bindSelf self? v).Unsaturated := by
  cases self? with
  | none => exact h
  | some name => exact h.insert name hv

end Scope.Unsaturated

theorem Scope.unsaturated_prelude : Scope.prelude.Unsaturated := by
  intro x v found
  rw [Scope.prelude, NameMap.ofList_map (Value.primitive · []), NameMap.get?_map] at found
  obtain ⟨p, -, rfl⟩ := Option.map_eq_some_iff.1 found
  refine .primitive ?_ (List.forall_mem_nil _)
  cases p <;> decide

theorem Value.unsaturated_of_data {v : Value} (h : v.isFunction = false) : v.Unsaturated := by
  cases v with
  | int => exact .int
  | bool => exact .bool
  | string => exact .string
  | closure | primitive => cases h

/-! ## Outcomes -/

/-- The error of an operation that is run on another number of arguments than it takes. -/
def EvalError.isMisrun : EvalError → Bool
  | notAFunction (.primitive ..) => true
  | _ => false

namespace Outcome

variable {α β : Type} {P : α → Prop} {Q : β → Prop}

/-- A result is as it should be, and an error is not that of an operation with the wrong number of arguments. -/
def Orderly (P : α → Prop) : Outcome α → Prop
  | done a => P a
  | failed e => e.isMisrun = false
  | unfinished => True

theorem Orderly.bind {x : Outcome α} {f : α → Outcome β} (hx : x.Orderly P) (hf : ∀ a, P a → (f a).Orderly Q) :
    (x >>= f).Orderly Q := by
  cases x with
  | done a => exact hf a hx
  | failed e => exact hx
  | unfinished => trivial

theorem Orderly.mono {P' : α → Prop} {x : Outcome α} (hx : x.Orderly P) (h : ∀ a, P a → P' a) : x.Orderly P' := by
  cases x with
  | done a => exact h a hx
  | failed e => exact hx
  | unfinished => trivial

end Outcome

namespace Value

open Outcome (ofExcept)

theorem orderly_asInt (v : Value) : (ofExcept v.asInt).Orderly fun _ => True := by
  cases v with
  | int => exact trivial
  | _ => rfl

theorem orderly_asBool (v : Value) : (ofExcept v.asBool).Orderly fun _ => True := by
  cases v with
  | bool => exact trivial
  | _ => rfl

theorem orderly_asString (v : Value) : (ofExcept v.asString).Orderly fun _ => True := by
  cases v with
  | string => exact trivial
  | _ => rfl

end Value

/-! ## Operations and calls -/

namespace Primitive

open Outcome (ofExcept ofExcept_bind)

variable {p : Primitive} {args : List Value}

/-- On as many arguments as it takes, an operation yields data or complains about an argument. -/
theorem run_of_length (full : args.length = p.arity) : (ofExcept (p.run args)).Orderly (·.isFunction = false) := by
  have ints (x y : Value) (op : Int64 → Int64 → Value) (data : ∀ m n, (op m n).isFunction = false) :
      (ofExcept do return op (← x.asInt) (← y.asInt)).Orderly (·.isFunction = false) := by
    simp only [ofExcept_bind]
    exact x.orderly_asInt.bind fun m _ => y.orderly_asInt.bind fun n _ => data m n
  cases p with
  | add =>
    obtain ⟨x, y, rfl⟩ := List.length_eq_two.1 full
    exact ints x y (fun m n => .int (m + n)) fun _ _ => rfl
  | sub =>
    obtain ⟨x, y, rfl⟩ := List.length_eq_two.1 full
    exact ints x y (fun m n => .int (m - n)) fun _ _ => rfl
  | intEquals =>
    obtain ⟨x, y, rfl⟩ := List.length_eq_two.1 full
    exact ints x y (fun m n => .bool (m = n)) fun _ _ => rfl
  | concat =>
    obtain ⟨x, y, rfl⟩ := List.length_eq_two.1 full
    simp only [run, ofExcept_bind]
    exact x.orderly_asString.bind fun s _ => y.orderly_asString.bind fun t _ => rfl
  | intToString =>
    obtain ⟨x, rfl⟩ := List.length_eq_one_iff.1 full
    simp only [run, ofExcept_bind]
    exact x.orderly_asInt.bind fun n _ => rfl

/-- On any other number of arguments it fails with the error that stands for this case. -/
theorem run_of_ne (h : args.length ≠ p.arity) : p.run args = .error (.notAFunction (.primitive p args)) := by
  obtain _ | ⟨x, _ | ⟨y, _ | ⟨z, rest⟩⟩⟩ := args
  · cases p <;> rfl
  · cases p with
    | intToString => exact absurd rfl h
    | _ => rfl
  · cases p with
    | intToString => rfl
    | _ => exact absurd rfl h
  · cases p <;> rfl

theorem run_eq_misrun_iff : p.run args = .error (.notAFunction (.primitive p args)) ↔ args.length ≠ p.arity := by
  refine ⟨fun misrun full => ?_, run_of_ne⟩
  have orderly := run_of_length full
  rw [misrun] at orderly
  cases orderly

end Primitive

/-- What a call comes down to is unsaturated: a value, or the scope that a body is evaluated in. -/
def Call.Unsaturated : Call → Prop
  | .value v => v.Unsaturated
  | .enter scope _ => scope.Unsaturated

namespace Value

open Outcome (ofExcept)

variable {f a v : Value}

/-- The scope that a closure is entered with. -/
theorem Unsaturated.entered {x : String} {body : Expr} {scope : Scope} {self? : Option String}
    (hf : (Value.closure x body scope self?).Unsaturated) (ha : a.Unsaturated) :
    Scope.Unsaturated ((scope.bindSelf self? (.closure x body scope self?)).insert x a) := by
  have self := hf
  cases hf with
  | closure captured => exact (Scope.Unsaturated.bindSelf captured self? self).insert x ha

/-- One more argument is at most enough. -/
theorem Unsaturated.length_of_full {p : Primitive} {args : List Value} (hf : (Value.primitive p args).Unsaturated)
    (a : Value) (full : p.arity ≤ args.length + 1) : (args ++ [a]).length = p.arity := by
  cases hf with
  | primitive waiting =>
    rw [List.length_append, List.length_singleton]
    omega

theorem call_orderly (hf : f.Unsaturated) (ha : a.Unsaturated) : (ofExcept (f.call a)).Orderly Call.Unsaturated := by
  cases f with
  | closure x body scope self? =>
    rw [call_closure]
    exact hf.entered ha
  | primitive p args =>
    by_cases more : args.length + 1 < p.arity
    · rw [call_waiting a more]
      cases hf with
      | primitive _ held =>
        refine .primitive (by simpa using more) ?_
        exact List.forall_mem_append.2 ⟨held, List.forall_mem_singleton.2 ha⟩
    · have full : p.arity ≤ args.length + 1 := by omega
      rw [call_full a full, Outcome.ofExcept_map]
      exact (p.run_of_length (hf.length_of_full a full)).bind fun v data => unsaturated_of_data data
  | int | bool | string => rfl

theorem bound_orderly (recursive : Bool) (name : String) (hv : v.Unsaturated) :
    (ofExcept (v.bound recursive name)).Orderly Value.Unsaturated := by
  cases recursive with
  | false => exact hv
  | true =>
    cases hv with
    | closure captured => exact .closure captured
    | _ => rfl

end Value

/-! ## Evaluation -/

/-- Evaluation in an unsaturated scope yields unsaturated values only. -/
theorem Expr.evalWithin_orderly (fuel room : Nat) {ρ : Scope} (e : Expr) (h : ρ.Unsaturated) :
    (e.evalWithin fuel room ρ).Orderly Value.Unsaturated := by
  induction fuel generalizing room ρ e with
  | zero =>
    rw [evalWithin]
    trivial
  | succ fuel ih =>
    cases room with
    | zero =>
      rw [evalWithin]
      rfl
    | succ room =>
      cases e with
      | int => exact .int
      | bool => exact .bool
      | string => exact .string
      | var x =>
        rw [evalWithin]
        cases found : ρ.get? x.name with
        | none => rfl
        | some v => exact h x.name v found
      | lam x body s => exact .closure h
      | app f a s =>
        rw [evalWithin_app]
        refine (ih room f h).bind fun w hw => (ih room a h).bind fun v hv => ?_
        refine (Value.call_orderly hw hv).bind fun c hc => ?_
        cases c with
        | value => exact hc
        | enter scope body => exact ih (room + 1) body hc
      | letIn recursive x value body s =>
        rw [evalWithin_letIn]
        refine (ih room value h).bind fun v hv => (Value.bound_orderly recursive x.name hv).bind fun w hw => ?_
        exact ih (room + 1) body (h.insert x.name hw)
      | cond c t e s =>
        rw [evalWithin_cond]
        exact (ih room c h).bind fun v _ => v.orderly_asBool.bind fun b _ => ih (room + 1) _ h

/-! ## What evaluation does on its way -/

/-- To evaluate an expression, to call a value with an argument, or to run an operation. The first two have some fuel and
some levels left. -/
inductive Activity where
  | eval (fuel room : Nat) (ρ : Scope) (e : Expr)
  | call (fuel room : Nat) (f a : Value)
  | run (p : Primitive) (args : List Value)

namespace Activity

/-- What an activity comes to. -/
def outcome : Activity → Outcome Value
  | eval fuel room ρ e => e.evalWithin fuel room ρ
  | call fuel room f a => Outcome.ofExcept (f.call a) >>= Call.resume fuel room
  | run p args => .ofExcept (p.run args)

/-- The first activity starts the second. An application has its function evaluated, then its argument, and then one called
with the other. A call of a closure has its body evaluated where the closure and the argument are bound, and a call of an
operation that needs no more arguments runs it. -/
inductive Starts : Activity → Activity → Prop where
  | function {fuel room : Nat} {ρ : Scope} {f a : Expr} {s : Span} :
      Starts (.eval (fuel + 1) (room + 1) ρ (.app f a s)) (.eval fuel room ρ f)
  | argument {fuel room : Nat} {ρ : Scope} {f a : Expr} {s : Span} {w : Value}
      (function : f.evalWithin fuel room ρ = .done w) :
      Starts (.eval (fuel + 1) (room + 1) ρ (.app f a s)) (.eval fuel room ρ a)
  | call {fuel room : Nat} {ρ : Scope} {f a : Expr} {s : Span} {w v : Value}
      (function : f.evalWithin fuel room ρ = .done w) (argument : a.evalWithin fuel room ρ = .done v) :
      Starts (.eval (fuel + 1) (room + 1) ρ (.app f a s)) (.call fuel (room + 1) w v)
  | value {fuel room : Nat} {ρ : Scope} {recursive : Bool} {x : Ident} {value body : Expr} {s : Span} :
      Starts (.eval (fuel + 1) (room + 1) ρ (.letIn recursive x value body s)) (.eval fuel room ρ value)
  | letBody {fuel room : Nat} {ρ : Scope} {recursive : Bool} {x : Ident} {value body : Expr} {s : Span} {v w : Value}
      (evaluated : value.evalWithin fuel room ρ = .done v) (bound : v.bound recursive x.name = .ok w) :
      Starts (.eval (fuel + 1) (room + 1) ρ (.letIn recursive x value body s))
        (.eval fuel (room + 1) (ρ.insert x.name w) body)
  | condition {fuel room : Nat} {ρ : Scope} {c t e : Expr} {s : Span} :
      Starts (.eval (fuel + 1) (room + 1) ρ (.cond c t e s)) (.eval fuel room ρ c)
  | branch {fuel room : Nat} {ρ : Scope} {c t e : Expr} {s : Span} {b : Bool}
      (condition : c.evalWithin fuel room ρ = .done (.bool b)) :
      Starts (.eval (fuel + 1) (room + 1) ρ (.cond c t e s)) (.eval fuel (room + 1) ρ (if b then t else e))
  | body {fuel room : Nat} {x : String} {body : Expr} {scope : Scope} {self? : Option String} {v : Value} :
      Starts (.call fuel room (.closure x body scope self?) v)
        (.eval fuel room ((scope.bindSelf self? (.closure x body scope self?)).insert x v) body)
  | run {fuel room : Nat} {p : Primitive} {args : List Value} {v : Value} (full : p.arity ≤ args.length + 1) :
      Starts (.call fuel room (.primitive p args) v) (.run p (args ++ [v]))

/-- Everything that the activity has at hand is unsaturated, and an operation that is run has as many arguments as it
takes. -/
def Sound : Activity → Prop
  | eval _ _ ρ _ => ρ.Unsaturated
  | call _ _ f a => f.Unsaturated ∧ a.Unsaturated
  | run p args => args.length = p.arity

variable {x y : Activity}

theorem Sound.outcome (h : x.Sound) : x.outcome.Orderly Value.Unsaturated := by
  cases x with
  | eval fuel room ρ e => exact e.evalWithin_orderly fuel room h
  | call fuel room f a =>
    refine (Value.call_orderly h.1 h.2).bind fun c hc => ?_
    cases c with
    | value => exact hc
    | enter scope body => exact body.evalWithin_orderly fuel room hc
  | run p args => exact (p.run_of_length h).mono fun v data => Value.unsaturated_of_data data

theorem Sound.returns (h : x.Sound) {v : Value} (done : x.outcome = .done v) : v.Unsaturated := by
  have orderly := h.outcome
  rw [done] at orderly
  exact orderly

theorem Sound.fails (h : x.Sound) {err : EvalError} (failed : x.outcome = .failed err) : err.isMisrun = false := by
  have orderly := h.outcome
  rw [failed] at orderly
  exact orderly

theorem Starts.sound (start : Starts x y) (h : x.Sound) : y.Sound := by
  cases start with
  | function | argument | value | condition | branch => exact h
  | @call fuel room ρ f a _ _ _ function argument =>
    have scope (e : Expr) : (eval fuel room ρ e).Sound := h
    exact ⟨(scope f).returns function, (scope a).returns argument⟩
  | @letBody fuel room ρ recursive x value _ _ _ _ evaluated bound =>
    have scope : (eval fuel room ρ value).Sound := h
    have orderly := Value.bound_orderly recursive x.name (scope.returns evaluated)
    rw [bound] at orderly
    exact Scope.Unsaturated.insert h x.name orderly
  | body => exact h.1.entered h.2
  | run full => exact h.1.length_of_full _ full

theorem sound_of_starts (run : ReflTransGen Starts x y) (h : x.Sound) : y.Sound := by
  induction run with
  | refl => exact h
  | tail _ start ih => exact start.sound ih

/-- On the way of the activity, every scope is unsaturated and so is every value that something comes to, and every operation
that is run has as many arguments as it takes and does not fail for their number. -/
structure Saturates (start : Activity) : Prop where
  binds : ∀ fuel room ρ e, ReflTransGen Starts start (eval fuel room ρ e) → ρ.Unsaturated
  returns : ∀ x, ReflTransGen Starts start x → ∀ v, x.outcome = .done v → v.Unsaturated
  runs : ∀ p args, ReflTransGen Starts start (run p args) →
    args.length = p.arity ∧ p.run args ≠ .error (.notAFunction (.primitive p args))

theorem Sound.saturates (h : x.Sound) : x.Saturates where
  binds _ _ _ _ reached := sound_of_starts reached h
  returns _ reached _ done := (sound_of_starts reached h).returns done
  runs p args reached := by
    have full : args.length = p.arity := sound_of_starts reached h
    exact ⟨full, fun misrun => Primitive.run_eq_misrun_iff.1 misrun full⟩

end Activity

/-- **Operations are run on as many arguments as they take.** In a scope where all operations hold fewer arguments than they
take, as in the prelude, evaluation of an expression keeps to this on all its way, ends with such values only, and never
fails because an operation was run on another number of arguments. The same holds of the application of two such values. -/
theorem Expr.eval_saturates :
    Scope.prelude.Unsaturated ∧
    (∀ ρ : Scope, ρ.Unsaturated → ∀ (e : Expr) (fuel : Nat),
      (Activity.eval fuel fullRoom ρ e).Saturates ∧ (∀ v, e.eval fuel ρ = .done v → v.Unsaturated) ∧
        ∀ err, e.eval fuel ρ = .failed err → err.isMisrun = false) ∧
    ∀ f a : Value, f.Unsaturated → a.Unsaturated → ∀ fuel,
      (Activity.call fuel fullRoom f a).Saturates ∧ (∀ v, f.apply fuel a = .done v → v.Unsaturated) ∧
        ∀ err, f.apply fuel a = .failed err → err.isMisrun = false := by
  refine ⟨Scope.unsaturated_prelude, fun ρ scope e fuel => ?_, fun f a hf ha fuel => ?_⟩
  · have sound : (Activity.eval fuel fullRoom ρ e).Sound := scope
    exact ⟨sound.saturates, fun v done => sound.returns done, fun err failed => sound.fails failed⟩
  · have sound : (Activity.call fuel fullRoom f a).Sound := ⟨hf, ha⟩
    exact ⟨sound.saturates, fun v done => sound.returns done, fun err failed => sound.fails failed⟩

/-- `let inc = add 1 in \n -> inc n` -/
def Expr.increment : Expr :=
  .letIn false ⟨"inc", {}⟩ (.app (.var ⟨"add", {}⟩) (.int 1 {}) {})
    (.lam ⟨"n", {}⟩ (.app (.var ⟨"inc", {}⟩) (.var ⟨"n", {}⟩) {}) {}) {}

/-- The closure has captured an operation that holds one argument of two. Its application to 2 runs the operation on both. -/
theorem Expr.eval_saturates_increment :
    Scope.prelude.Unsaturated ∧
      ∃ f, increment.eval 10 .prelude = .done f ∧ f.Unsaturated ∧ f.apply 10 (.int 2) = .done (.int 3) ∧
        (Activity.call 10 fullRoom f (.int 2)).Saturates := by
  obtain ⟨prelude, evaluation, application⟩ := Expr.eval_saturates
  have unsaturated := (evaluation .prelude prelude increment 10).2.1 _ rfl
  exact ⟨prelude, _, rfl, unsaturated, rfl, (application _ (.int 2) unsaturated .int 10).1⟩

end Monolet
