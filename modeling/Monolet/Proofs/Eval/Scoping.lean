import Mathlib
import Monolet.Proofs.Eval.Natural
import Monolet.Proofs.Eval.Safety

/-!
# Evaluation and free variables

What can be seen of an evaluation (`Outcome.look`) should depend only on what the scope says about the names that
are free in the expression. It does so when every recursive `let` binds a lambda literal, in the expression and in
the closures that the scope offers. Evaluations in two scopes are then followed side by side: values are alike when
they differ at most in what closures have captured under names that their bodies cannot reach (`Value.Alike`), and
calling and evaluating keep values alike (`Value.call_alike`, `Expr.evalWithin_alike`).

The restriction is needed. The value of a recursive `let` is evaluated in the scope outside, so in `let rec x = x in 1`
the name `x` is looked up there although it is not free in the expression.
-/

namespace Monolet

/-! ## What can be seen -/

/-- What can be seen of a value: its content, or that it is a function. -/
inductive Look where
  | int (n : Int64)
  | bool (b : Bool)
  | string (s : String)
  | function
deriving DecidableEq

def Value.look : Value → Look
  | int n => .int n
  | bool b => .bool b
  | string s => .string s
  | closure .. | primitive .. => .function

/-- Errors without what they carry. -/
inductive EvalError.Kind where
  | unknownVariable
  | notAFunction
  | expectedInt
  | expectedBool
  | expectedString
  | recursiveNonFunction
  | tooDeep
deriving DecidableEq

def EvalError.kind : EvalError → Kind
  | unknownVariable _ => .unknownVariable
  | notAFunction _ => .notAFunction
  | expectedInt _ => .expectedInt
  | expectedBool _ => .expectedBool
  | expectedString _ => .expectedString
  | recursiveNonFunction .. => .recursiveNonFunction
  | tooDeep => .tooDeep

/-- What can be seen of an evaluation; nothing while it has not ended. -/
def Outcome.look : Outcome Value → Option (Except EvalError.Kind Look)
  | done v => some (.ok v.look)
  | failed e => some (.error e.kind)
  | unfinished => none

/-! ## Values that are alike -/

/-- Every recursive `let` that evaluation can meet inside the value binds a lambda literal. -/
inductive Value.RecursesOnLambdas : Value → Prop where
  | int {n : Int64} : RecursesOnLambdas (.int n)
  | bool {b : Bool} : RecursesOnLambdas (.bool b)
  | string {s : String} : RecursesOnLambdas (.string s)
  | closure {binder : String} {body : Expr} {scope : Scope} {self? : Option String}
      (lambdas : body.recursesOnLambdas = true)
      (captured : ∀ x v, x ∈ body.freeVars → scope.get? x = some v → RecursesOnLambdas v) :
      RecursesOnLambdas (.closure binder body scope self?)
  | primitive {p : Primitive} {args : List Value} (held : ∀ v ∈ args, RecursesOnLambdas v) :
      RecursesOnLambdas (.primitive p args)

/-- Does the body of a closure take the name from the captured scope, if it uses it at all? -/
def Value.Captures (binder : String) (body : Expr) (self? : Option String) (x : String) : Prop :=
  x ∈ body.freeVars ∧ x ≠ binder ∧ self? ≠ some x

/-- The same data, or functions that do the same: closures of one lambda that have captured like values. -/
inductive Value.Alike : Value → Value → Prop where
  | int {n : Int64} : Alike (.int n) (.int n)
  | bool {b : Bool} : Alike (.bool b) (.bool b)
  | string {s : String} : Alike (.string s) (.string s)
  | closure {binder : String} {body : Expr} {scope scope' : Scope} {self? : Option String}
      (lambdas : body.recursesOnLambdas = true)
      (bound : ∀ x, Captures binder body self? x → (scope.get? x).isSome = (scope'.get? x).isSome)
      (alike : ∀ x v v', Captures binder body self? x → scope.get? x = some v → scope'.get? x = some v' → Alike v v') :
      Alike (.closure binder body scope self?) (.closure binder body scope' self?)
  | primitive {p : Primitive} {args args' : List Value}
      (length : args.length = args'.length)
      (alike : ∀ (i : Nat) v v', args[i]? = some v → args'[i]? = some v' → Alike v v') :
      Alike (.primitive p args) (.primitive p args')

theorem Value.RecursesOnLambdas.alike {v : Value} (h : v.RecursesOnLambdas) : v.Alike v := by
  induction h with
  | int => exact .int
  | bool => exact .bool
  | string => exact .string
  | closure lambdas _ ih =>
    refine .closure lambdas (fun _ _ => rfl) fun x v v' captures hv hv' => ?_
    rw [hv] at hv'
    cases hv'
    exact ih x v captures.1 hv
  | primitive _ ih =>
    refine .primitive rfl fun i v v' hv hv' => ?_
    rw [hv] at hv'
    cases hv'
    exact ih v (List.mem_of_getElem? hv)

theorem Value.Alike.look_eq {v w : Value} (h : v.Alike w) : v.look = w.look := by
  cases h <;> rfl

theorem Value.alike_of_data (v : Value) (data : v.isFunction = false) : v.Alike v := by
  cases v with
  | int => exact .int
  | bool => exact .bool
  | string => exact .string
  | _ => cases data

theorem rel_iff_isSome {α β : Type} {R : α → β → Prop} {o : Option α} {o' : Option β} :
    Option.Rel R o o' ↔ o.isSome = o'.isSome ∧ ∀ a b, o = some a → o' = some b → R a b := by
  constructor
  · intro h
    cases h with
    | none => exact ⟨rfl, fun _ _ none => by cases none⟩
    | some h =>
      refine ⟨rfl, fun _ _ ha hb => ?_⟩
      cases ha
      cases hb
      exact h
  · rintro ⟨same, related⟩
    cases o with
    | none =>
      cases o' with
      | none => exact .none
      | some b => cases same
    | some a =>
      cases o' with
      | none => cases same
      | some b => exact .some (related a b rfl rfl)

/-- Two scopes bind the same ones of some names, to values that are alike. -/
def Scope.AlikeOn (names : List String) (ρ ρ' : Scope) : Prop :=
  ∀ x ∈ names, Option.Rel Value.Alike (ρ.get? x) (ρ'.get? x)

namespace Scope.AlikeOn

variable {names more : List String} {ρ ρ' : Scope} {v v' : Value}

theorem mono (h : Scope.AlikeOn more ρ ρ') (sub : ∀ x ∈ names, x ∈ more) : Scope.AlikeOn names ρ ρ' :=
  fun x hx => h x (sub x hx)

theorem insert {x : String} (h : Scope.AlikeOn (Ascending.remove x names) ρ ρ') (alike : v.Alike v') :
    Scope.AlikeOn names (ρ.insert x v) (ρ'.insert x v') := by
  intro y hy
  rw [NameMap.get?_insert, NameMap.get?_insert]
  split
  · exact .some alike
  · rename_i ne
    exact h y (Ascending.mem_remove.2 ⟨hy, ne⟩)

end Scope.AlikeOn

theorem Value.alike_closure {binder : String} {body : Expr} {ρ ρ' : Scope} {self? : Option String}
    (lambdas : body.recursesOnLambdas = true)
    (captured : ∀ x, Captures binder body self? x → Option.Rel Alike (ρ.get? x) (ρ'.get? x)) :
    (closure binder body ρ self?).Alike (closure binder body ρ' self?) :=
  .closure lambdas (fun x h => (rel_iff_isSome.1 (captured x h)).1) fun x _ _ h => (rel_iff_isSome.1 (captured x h)).2 _ _

theorem Value.alike_primitive {p : Primitive} {args args' : List Value} :
    (primitive p args).Alike (primitive p args') ↔ List.Forall₂ Alike args args' := by
  rw [List.forall₂_iff_get]
  constructor
  · rintro (_ | _ | _ | _ | ⟨length, alike⟩)
    exact ⟨length, fun i h h' => alike i _ _ (List.getElem?_eq_getElem h) (List.getElem?_eq_getElem h')⟩
  · rintro ⟨length, alike⟩
    refine .primitive length fun i v v' hv hv' => ?_
    obtain ⟨h, rfl⟩ := List.getElem?_eq_some_iff.1 hv
    obtain ⟨h', rfl⟩ := List.getElem?_eq_some_iff.1 hv'
    exact alike i h h'

/-! ## Outcomes that are alike -/

/-- Both evaluations have ended, with related results or with errors of one kind, or neither has. -/
inductive Outcome.Alike {α β : Type} (R : α → β → Prop) : Outcome α → Outcome β → Prop where
  | done {a : α} {b : β} (h : R a b) : Alike R (done a) (done b)
  | failed {e e' : EvalError} (h : e.kind = e'.kind) : Alike R (failed e) (failed e')
  | unfinished : Alike R unfinished unfinished

namespace Outcome

variable {α β γ δ : Type} {R : α → β → Prop} {S : γ → δ → Prop}

theorem Alike.bind {x : Outcome α} {y : Outcome β} {f : α → Outcome γ} {g : β → Outcome δ} (h : Alike R x y)
    (h' : ∀ a b, R a b → Alike S (f a) (g b)) : Alike S (x >>= f) (y >>= g) := by
  cases h with
  | done h => exact h' _ _ h
  | failed h => exact .failed h
  | unfinished => exact .unfinished

theorem ofExcept_bind (x : Except EvalError α) (f : α → Except EvalError γ) :
    ofExcept (x >>= f) = ofExcept x >>= fun a => ofExcept (f a) := by
  cases x <;> rfl

theorem ofExcept_map (f : α → γ) (x : Except EvalError α) :
    ofExcept (x.map f) = ofExcept x >>= fun a => done (f a) := by
  cases x <;> rfl

/-- Outcomes look the same when the values they may end with do. -/
theorem Alike.look_eq_of {R : Value → Value → Prop} {x y : Outcome Value} (h : Alike R x y)
    (same : ∀ v w, R v w → v.look = w.look) : x.look = y.look := by
  cases h with
  | done h => rw [look, look, same _ _ h]
  | failed h => rw [look, look, h]
  | unfinished => rfl

theorem Alike.look_eq {x y : Outcome Value} (h : Alike Value.Alike x y) : x.look = y.look :=
  h.look_eq_of fun _ _ h => h.look_eq

end Outcome

/-! ## Calls -/

section Primitives

open Outcome (ofExcept ofExcept_bind)

variable {v w : Value} {args args' : List Value}

theorem Value.asInt_alike (h : v.look = w.look) : Outcome.Alike Eq (ofExcept v.asInt) (ofExcept w.asInt) := by
  cases v with
  | int n =>
    cases w with
    | int m =>
      cases h
      exact .done rfl
    | _ => cases h
  | _ =>
    cases w with
    | int m => cases h
    | _ => exact .failed rfl

theorem Value.asBool_alike (h : v.look = w.look) : Outcome.Alike Eq (ofExcept v.asBool) (ofExcept w.asBool) := by
  cases v with
  | bool b =>
    cases w with
    | bool c =>
      cases h
      exact .done rfl
    | _ => cases h
  | _ =>
    cases w with
    | bool c => cases h
    | _ => exact .failed rfl

theorem Value.asString_alike (h : v.look = w.look) :
    Outcome.Alike Eq (ofExcept v.asString) (ofExcept w.asString) := by
  cases v with
  | string s =>
    cases w with
    | string t =>
      cases h
      exact .done rfl
    | _ => cases h
  | _ =>
    cases w with
    | string t => cases h
    | _ => exact .failed rfl

variable {R : Value → Value → Prop}

theorem Value.ints_alike {x y x' y' : Value} (hx : x.look = x'.look) (hy : y.look = y'.look)
    {op : Int64 → Int64 → Value} (refl : ∀ m n, R (op m n) (op m n)) :
    Outcome.Alike R (ofExcept do return op (← x.asInt) (← y.asInt))
      (ofExcept do return op (← x'.asInt) (← y'.asInt)) := by
  simp only [ofExcept_bind]
  refine (asInt_alike hx).bind fun m _ eq => (asInt_alike hy).bind fun n _ eq' => ?_
  subst eq eq'
  exact .done (refl m n)

/-- Operations see of their arguments what can be seen, and their results are data. -/
theorem Primitive.run_alike (p : Primitive) (data : ∀ v : Value, v.isFunction = false → R v v)
    (h : List.Forall₂ (fun v w => v.look = w.look) args args') :
    Outcome.Alike R (ofExcept (p.run args)) (ofExcept (p.run args')) := by
  match h with
  | .nil => cases p <;> exact .failed rfl
  | .cons hx .nil =>
    cases p with
    | intToString =>
      simp only [run, ofExcept_bind]
      refine (Value.asInt_alike hx).bind fun n _ eq => ?_
      subst eq
      exact .done (data _ rfl)
    | _ => exact .failed rfl
  | .cons hx (.cons hy .nil) =>
    cases p with
    | add => exact Value.ints_alike hx hy fun _ _ => data _ rfl
    | sub => exact Value.ints_alike hx hy fun _ _ => data _ rfl
    | intEquals => exact Value.ints_alike hx hy fun _ _ => data _ rfl
    | concat =>
      simp only [run, ofExcept_bind]
      refine (Value.asString_alike hx).bind fun s _ eq => (Value.asString_alike hy).bind fun t _ eq' => ?_
      subst eq eq'
      exact .done (data _ rfl)
    | intToString => exact .failed rfl
  | .cons _ (.cons _ (.cons _ _)) => cases p <;> exact .failed rfl

end Primitives

/-- Calls that come down to values that are alike, or to one body in scopes that are alike as far as it can see. -/
inductive Call.Alike : Call → Call → Prop where
  | value {v w : Value} (h : v.Alike w) : Alike (.value v) (.value w)
  | enter {ρ ρ' : Scope} {body : Expr} (lambdas : body.recursesOnLambdas = true)
      (h : Scope.AlikeOn body.freeVars ρ ρ') : Alike (.enter ρ body) (.enter ρ' body)

theorem Value.call_alike {f f' a a' : Value} (hf : f.Alike f') (ha : a.Alike a') :
    Outcome.Alike Call.Alike (.ofExcept (f.call a)) (.ofExcept (f'.call a')) := by
  have self := hf
  cases hf with
  | int | bool | string => exact .failed rfl
  | @closure binder body scope scope' self? lambdas bound alike =>
    have captured (x : String) (h : Captures binder body self? x) : Option.Rel Alike (scope.get? x) (scope'.get? x) :=
      rel_iff_isSome.2 ⟨bound x h, fun v v' => alike x v v' h⟩
    rw [call_closure, call_closure]
    refine .done (.enter lambdas (Scope.AlikeOn.insert (fun x hx => ?_) ha))
    obtain ⟨free, other⟩ := Ascending.mem_remove.1 hx
    cases self? with
    | none => exact captured x ⟨free, other, nofun⟩
    | some name =>
      rw [Scope.bindSelf, Scope.bindSelf, NameMap.get?_insert, NameMap.get?_insert]
      split
      · exact .some self
      · rename_i ne
        exact captured x ⟨free, other, fun eq => ne (Option.some.inj eq).symm⟩
  | @primitive p args args' length alike =>
    have held : List.Forall₂ Alike (args ++ [a]) (args' ++ [a']) :=
      List.rel_append (alike_primitive.1 self) (.cons ha .nil)
    by_cases waiting : args.length + 1 < p.arity
    · rw [call_waiting a waiting, call_waiting a' (length ▸ waiting)]
      exact .done (.value (alike_primitive.2 held))
    · have full : p.arity ≤ args.length + 1 := by omega
      rw [call_full a full, call_full a' (length ▸ full)]
      rw [Outcome.ofExcept_map, Outcome.ofExcept_map]
      have seen := held.imp fun _ _ h => h.look_eq
      exact (p.run_alike alike_of_data seen).bind fun v w h => .done (.value h)

/-! ## Evaluation -/

namespace Expr

open Outcome (Alike)

variable {ρ ρ' : Scope}

theorem evalWithin_lam_alike (fuel room : Nat) (x : Ident) (body : Expr) (s : Span) :
    Outcome.Alike (fun v w => v = .closure x.name body ρ none ∧ w = .closure x.name body ρ' none)
      ((lam x body s).evalWithin fuel room ρ) ((lam x body s).evalWithin fuel room ρ') := by
  cases fuel with
  | zero =>
    rw [evalWithin, evalWithin]
    exact .unfinished
  | succ fuel =>
    cases room with
    | zero => exact .failed rfl
    | succ room => exact .done ⟨rfl, rfl⟩

/-- Scopes that are alike on the free variables lead to outcomes that are alike. -/
theorem evalWithin_alike (fuel room : Nat) {e : Expr} (lambdas : e.recursesOnLambdas = true)
    (scopes : Scope.AlikeOn e.freeVars ρ ρ') :
    Outcome.Alike Value.Alike (e.evalWithin fuel room ρ) (e.evalWithin fuel room ρ') := by
  induction fuel generalizing room e ρ ρ' with
  | zero =>
    rw [evalWithin, evalWithin]
    exact .unfinished
  | succ fuel ih =>
    cases room with
    | zero =>
      rw [evalWithin, evalWithin]
      exact .failed rfl
    | succ room =>
      cases e with
      | int => exact .done .int
      | bool => exact .done .bool
      | string => exact .done .string
      | var x =>
        have found := scopes x.name (List.mem_singleton.2 rfl)
        rw [evalWithin, evalWithin]
        generalize ρ.get? x.name = o at found
        generalize ρ'.get? x.name = o' at found
        cases found with
        | none => exact .failed rfl
        | some alike => exact .done alike
      | lam x body s =>
        refine .done (Value.alike_closure lambdas fun y captures => ?_)
        exact scopes y (Ascending.mem_remove.2 ⟨captures.1, captures.2.1⟩)
      | app f a s =>
        obtain ⟨lambdasF, lambdasA⟩ := Bool.and_eq_true_iff.1 lambdas
        rw [evalWithin_app, evalWithin_app]
        refine (ih room lambdasF (scopes.mono fun x hx => ?_)).bind fun w w' hw => ?_
        · exact Ascending.mem_union.2 (.inl hx)
        refine (ih room lambdasA (scopes.mono fun x hx => ?_)).bind fun v v' hv => ?_
        · exact Ascending.mem_union.2 (.inr hx)
        refine (Value.call_alike hw hv).bind fun c c' hc => ?_
        cases hc with
        | value h => exact .done h
        | enter lambdas' scopes' => exact ih (room + 1) lambdas' scopes'
      | letIn recursive x value body s =>
        obtain ⟨literal, rest⟩ := Bool.and_eq_true_iff.1 lambdas
        obtain ⟨lambdasV, lambdasB⟩ := Bool.and_eq_true_iff.1 rest
        have inBody : Scope.AlikeOn (Ascending.remove x.name body.freeVars) ρ ρ' :=
          scopes.mono fun y hy => Ascending.mem_union.2 (.inr hy)
        rw [evalWithin_letIn, evalWithin_letIn]
        cases recursive with
        | false =>
          refine (ih room lambdasV (scopes.mono fun y hy => ?_)).bind fun v v' hv => ?_
          · exact Ascending.mem_union.2 (.inl hy)
          · exact ih (room + 1) lambdasB (inBody.insert hv)
        | true =>
          obtain ⟨y, inner, span, rfl⟩ := eq_lam_of_isLam (by simpa using literal)
          have self : (Value.closure y.name inner ρ (some x.name)).Alike (.closure y.name inner ρ' (some x.name)) := by
            refine Value.alike_closure lambdasV fun z captures => scopes z (Ascending.mem_union.2 (.inl ?_))
            have free : z ∈ (lam y inner span).freeVars := Ascending.mem_remove.2 ⟨captures.1, captures.2.1⟩
            exact Ascending.mem_remove.2 ⟨free, fun eq => captures.2.2 (eq ▸ rfl)⟩
          refine (evalWithin_lam_alike fuel room y inner span).bind fun v v' closures => ?_
          obtain ⟨rfl, rfl⟩ := closures
          exact ih (room + 1) lambdasB (inBody.insert self)
      | cond c t e s =>
        obtain ⟨lambdasC, rest⟩ := Bool.and_eq_true_iff.1 lambdas
        obtain ⟨lambdasT, lambdasE⟩ := Bool.and_eq_true_iff.1 rest
        rw [evalWithin_cond, evalWithin_cond]
        refine (ih room lambdasC (scopes.mono fun x hx => ?_)).bind fun v v' hv => ?_
        · exact Ascending.mem_union.2 (.inl hx)
        refine (Value.asBool_alike hv.look_eq).bind fun b _ eq => ?_
        subst eq
        cases b with
        | true =>
          have inThen : Scope.AlikeOn t.freeVars ρ ρ' :=
            scopes.mono fun x hx => Ascending.mem_union.2 (.inr (Ascending.mem_union.2 (.inl hx)))
          exact ih (room + 1) lambdasT inThen
        | false =>
          have inElse : Scope.AlikeOn e.freeVars ρ ρ' :=
            scopes.mono fun x hx => Ascending.mem_union.2 (.inr (Ascending.mem_union.2 (.inr hx)))
          exact ih (room + 1) lambdasE inElse

/-- **Evaluation sees free variables only**, provided that recursive `let`s bind lambda literals. In two scopes that bind
the free variables of an expression alike, its evaluation looks the same after any number of steps: neither has ended,
or both have ended with the same number, boolean or text, with a function, or with errors of one kind. -/
theorem eval_look_eq {e : Expr} (lambdas : e.recursesOnLambdas = true) {ρ ρ' : Scope}
    (same : ∀ x ∈ e.freeVars, ρ.get? x = ρ'.get? x)
    (values : ∀ x ∈ e.freeVars, ∀ v, ρ.get? x = some v → v.RecursesOnLambdas) (fuel : Nat) :
    (e.eval fuel ρ).look = (e.eval fuel ρ').look := by
  have scopes : Scope.AlikeOn e.freeVars ρ ρ' := by
    intro x hx
    rw [← same x hx]
    cases bound : ρ.get? x with
    | none => exact .none
    | some v => exact .some (values x hx v bound).alike
  exact (evalWithin_alike fuel fullRoom lambdas scopes).look_eq

end Expr

/-- The prelude, and values for the names that `countdown` binds itself. -/
def Scope.rebound : Scope := (Scope.prelude.insert "f" (.int 7)).insert "n" (.bool true)

namespace Expr

theorem eval_look_eq_countdown :
    (∀ x ∈ countdown.freeVars, Scope.prelude.get? x = Scope.rebound.get? x) ∧
      (countdown.eval 20 .prelude).look = some (.ok (.string "end")) ∧
      (countdown.eval 20 .rebound).look = some (.ok (.string "end")) := by
  have names : countdown.freeVars = ["int_equals", "sub"] := by decide
  have same : ∀ x ∈ countdown.freeVars, Scope.prelude.get? x = Scope.rebound.get? x := by
    rw [names]
    exact List.forall_mem_cons.2 ⟨rfl, List.forall_mem_cons.2 ⟨rfl, List.forall_mem_nil _⟩⟩
  have values : ∀ x ∈ countdown.freeVars, ∀ v, Scope.prelude.get? x = some v → v.RecursesOnLambdas := by
    have operation (p : Primitive) : (Value.primitive p []).RecursesOnLambdas := .primitive (List.forall_mem_nil _)
    rw [names]
    refine List.forall_mem_cons.2 ⟨fun v bound => ?_, List.forall_mem_cons.2 ⟨fun v bound => ?_, List.forall_mem_nil _⟩⟩
    · cases bound
      exact operation .intEquals
    · cases bound
      exact operation .sub
  have ends : (countdown.eval 20 .prelude).look = some (.ok (.string "end")) := rfl
  exact ⟨same, ends, (eval_look_eq rfl same values 20).symm.trans ends⟩

/-- `let rec x = x in 1` -/
def outerName : Expr := .letIn true ⟨"x", {}⟩ (.var ⟨"x", {}⟩) (.int 1 {}) {}

/-- No name is free in `let rec x = x in 1`, but its evaluation fails or not as `x` is bound in the scope or not. -/
theorem eval_look_outerName :
    outerName.freeVars = [] ∧ (outerName.eval 2 {}).look = some (.error .unknownVariable) ∧
      (outerName.eval 2 (NameMap.insert {} "x" (.closure "y" (.var ⟨"y", {}⟩) {} none))).look = some (.ok (.int 1)) :=
  ⟨rfl, rfl, rfl⟩

end Expr

end Monolet
