import Mathlib
import Monolet.Proofs.Eval.Depth
import Monolet.Proofs.Eval.Scoping

/-!
# The names of recursive closures

A recursive `let` gives its name to whatever closure its value evaluates to. A closure that the `let` has made itself can
use the name to call itself. One that was there before loses the name it had, and if its function looks up the new name,
it finds itself where it used to find something else.

So a recursive `let` means the same as a plain one when the function of the closure looks up neither the new name nor the
old one. Evaluations with and without the name are followed side by side. Values are similar when they differ at most in
names that closures carry and their functions do not look up (`Value.Similar`); calls, later recursive `let`s and
evaluation keep values similar.
-/

namespace Monolet

namespace Expr

/-- The names that evaluation can look up in the scope of an expression. The name of a recursive `let` counts in its value,
unlike in `freeVars`: the value is evaluated in the scope outside, and a closure that it makes there can lose the name to
another recursive `let`. -/
def lookups : Expr → List String
  | int .. | bool .. | string .. => []
  | var x => [x.name]
  | lam x body _ => Ascending.remove x.name body.lookups
  | app f a _ => Ascending.union f.lookups a.lookups
  | letIn _ x value body _ => Ascending.union value.lookups (Ascending.remove x.name body.lookups)
  | cond c t e _ => Ascending.union c.lookups (Ascending.union t.lookups e.lookups)

end Expr

/-! ## Similar values -/

/-- Two closures of one lambda carry the same name, or names that the lambda does not look up. -/
def Value.SameName (names : List String) (self? self?' : Option String) : Prop :=
  self? = self?' ∨ ∀ x ∈ names, self? ≠ some x ∧ self?' ≠ some x

/-- The same data, or functions that do the same: closures of one lambda that have captured similar values, and whose
names make no difference to the lambda. -/
inductive Value.Similar : Value → Value → Prop where
  | int {n : Int64} : Similar (.int n) (.int n)
  | bool {b : Bool} : Similar (.bool b) (.bool b)
  | string {s : String} : Similar (.string s) (.string s)
  | closure {binder : String} {body : Expr} {scope scope' : Scope} {self? self?' : Option String}
      (name : SameName (Ascending.remove binder body.lookups) self? self?')
      (bound : ∀ x ∈ Ascending.remove binder body.lookups, (scope.get? x).isSome = (scope'.get? x).isSome)
      (similar : ∀ x ∈ Ascending.remove binder body.lookups, ∀ v v',
        scope.get? x = some v → scope'.get? x = some v' → Similar v v') :
      Similar (.closure binder body scope self?) (.closure binder body scope' self?')
  | primitive {p : Primitive} {args args' : List Value}
      (length : args.length = args'.length)
      (similar : ∀ (i : Nat) v v', args[i]? = some v → args'[i]? = some v' → Similar v v') :
      Similar (.primitive p args) (.primitive p args')

/-- Two scopes bind the same ones of some names, to similar values. -/
def Scope.SimilarOn (names : List String) (ρ ρ' : Scope) : Prop :=
  ∀ x ∈ names, Option.Rel Value.Similar (ρ.get? x) (ρ'.get? x)

namespace Scope.SimilarOn

variable {names more : List String} {ρ ρ' : Scope} {v v' : Value}

theorem mono (h : Scope.SimilarOn more ρ ρ') (sub : ∀ x ∈ names, x ∈ more) : Scope.SimilarOn names ρ ρ' :=
  fun x hx => h x (sub x hx)

theorem insert {x : String} (h : Scope.SimilarOn (Ascending.remove x names) ρ ρ') (similar : v.Similar v') :
    Scope.SimilarOn names (ρ.insert x v) (ρ'.insert x v') := by
  intro y hy
  rw [NameMap.get?_insert, NameMap.get?_insert]
  split
  · exact .some similar
  · rename_i ne
    exact h y (Ascending.mem_remove.2 ⟨hy, ne⟩)

end Scope.SimilarOn

theorem NameMap.sizeOf_lt_of_get? {α : Type} [SizeOf α] {m : NameMap α} {x : String} {a : α}
    (h : m.get? x = some a) : sizeOf a < sizeOf m := by
  obtain ⟨bindings⟩ := m
  obtain ⟨before, behind, split, -⟩ := List.lookup_eq_some_iff.1 h
  have inside : (x, a) ∈ bindings := by
    simp only at split
    simp [split]
  have smaller := List.sizeOf_lt_of_mem inside
  simp only [NameMap.mk.sizeOf_spec, Prod.mk.sizeOf_spec] at smaller ⊢
  omega

theorem Scope.get?_bindSelf {ρ : Scope} {self? : Option String} {x : String} (f : Value) (h : self? ≠ some x) :
    (ρ.bindSelf self? f).get? x = ρ.get? x := by
  cases self? with
  | none => rfl
  | some name =>
    have ne : x ≠ name := by
      rintro rfl
      exact h rfl
    rw [Scope.bindSelf, NameMap.get?_insert, if_neg ne]

namespace Value

theorem similar_closure {binder : String} {body : Expr} {ρ ρ' : Scope} {self? self?' : Option String}
    (name : SameName (Ascending.remove binder body.lookups) self? self?')
    (captured : Scope.SimilarOn (Ascending.remove binder body.lookups) ρ ρ') :
    (closure binder body ρ self?).Similar (closure binder body ρ' self?') :=
  .closure name (fun x h => (rel_iff_isSome.1 (captured x h)).1)
    fun x h _ _ => (rel_iff_isSome.1 (captured x h)).2 _ _

theorem similar_primitive {p : Primitive} {args args' : List Value} :
    (primitive p args).Similar (primitive p args') ↔ List.Forall₂ Similar args args' := by
  rw [List.forall₂_iff_get]
  constructor
  · rintro (_ | _ | _ | _ | ⟨length, similar⟩)
    exact ⟨length, fun i h h' => similar i _ _ (List.getElem?_eq_getElem h) (List.getElem?_eq_getElem h')⟩
  · rintro ⟨length, similar⟩
    refine .primitive length fun i v v' hv hv' => ?_
    obtain ⟨h, rfl⟩ := List.getElem?_eq_some_iff.1 hv
    obtain ⟨h', rfl⟩ := List.getElem?_eq_some_iff.1 hv'
    exact similar i h h'

/-- Every value is similar to itself, by induction on the values inside it. -/
theorem similar_refl (v : Value) : v.Similar v := by
  match v with
  | int _ => exact .int
  | bool _ => exact .bool
  | string _ => exact .string
  | closure binder body scope self? =>
    refine .closure (.inl rfl) (fun _ _ => rfl) fun x _ w w' hw hw' => ?_
    rw [hw] at hw'
    cases hw'
    have := NameMap.sizeOf_lt_of_get? hw
    exact similar_refl w
  | primitive p args =>
    refine .primitive rfl fun i w w' hw hw' => ?_
    rw [hw] at hw'
    cases hw'
    have := List.sizeOf_lt_of_mem (List.mem_of_getElem? hw)
    exact similar_refl w
termination_by sizeOf v
decreasing_by
  all_goals
    simp only [closure.sizeOf_spec, primitive.sizeOf_spec]
    omega

theorem Similar.look_eq {v w : Value} (h : v.Similar w) : v.look = w.look := by
  cases h <;> rfl

end Value

theorem Scope.similarOn_refl (names : List String) (ρ : Scope) : Scope.SimilarOn names ρ ρ := by
  intro x _
  cases ρ.get? x with
  | none => exact .none
  | some v => exact .some v.similar_refl

/-! ## Calls and recursive bindings -/

/-- Calls that come down to similar values, or to one body in scopes that are similar as far as it looks. -/
inductive Call.Similar : Call → Call → Prop where
  | value {v w : Value} (h : v.Similar w) : Similar (.value v) (.value w)
  | enter {ρ ρ' : Scope} {body : Expr} (h : Scope.SimilarOn body.lookups ρ ρ') : Similar (.enter ρ body) (.enter ρ' body)

namespace Value

theorem call_similar {f f' a a' : Value} (hf : f.Similar f') (ha : a.Similar a') :
    Outcome.Alike Call.Similar (.ofExcept (f.call a)) (.ofExcept (f'.call a')) := by
  have self := hf
  cases hf with
  | int | bool | string => exact .failed rfl
  | @closure binder body scope scope' self? self?' name bound similar =>
    have captured : Scope.SimilarOn (Ascending.remove binder body.lookups) scope scope' :=
      fun x h => rel_iff_isSome.2 ⟨bound x h, similar x h⟩
    rw [call_closure, call_closure]
    refine .done (.enter (Scope.SimilarOn.insert (fun x hx => ?_) ha))
    rcases name with rfl | unused
    · by_cases own : self? = some x
      · subst own
        rw [Scope.bindSelf, Scope.bindSelf, NameMap.get?_insert, NameMap.get?_insert, if_pos rfl, if_pos rfl]
        exact .some self
      · rw [Scope.get?_bindSelf _ own, Scope.get?_bindSelf _ own]
        exact captured x hx
    · obtain ⟨notOwn, notOwn'⟩ := unused x hx
      rw [Scope.get?_bindSelf _ notOwn, Scope.get?_bindSelf _ notOwn']
      exact captured x hx
  | @primitive p args args' length similar =>
    have held : List.Forall₂ Similar (args ++ [a]) (args' ++ [a']) :=
      List.rel_append (similar_primitive.1 self) (.cons ha .nil)
    by_cases waiting : args.length + 1 < p.arity
    · rw [call_waiting a waiting, call_waiting a' (length ▸ waiting)]
      exact .done (.value (similar_primitive.2 held))
    · have full : p.arity ≤ args.length + 1 := by omega
      rw [call_full a full, call_full a' (length ▸ full)]
      rw [Outcome.ofExcept_map, Outcome.ofExcept_map]
      have seen := held.imp fun _ _ h => h.look_eq
      exact (p.run_alike (fun v _ => v.similar_refl) seen).bind fun v w h => .done (.value h)

/-- Similar closures are given the same name. -/
theorem bound_similar {v v' : Value} (recursive : Bool) (x : String) (h : v.Similar v') :
    Outcome.Alike Similar (.ofExcept (v.bound recursive x)) (.ofExcept (v'.bound recursive x)) := by
  cases recursive with
  | false => exact .done h
  | true =>
    cases h with
    | closure _ bound similar => exact .done (.closure (.inl rfl) bound similar)
    | _ => exact .failed rfl

end Value

/-! ## Evaluation -/

namespace Expr

variable {ρ ρ' : Scope}

/-- Scopes that are similar on the names looked up lead to similar outcomes. -/
theorem evalWithin_similar (fuel room : Nat) {e : Expr} (scopes : Scope.SimilarOn e.lookups ρ ρ') :
    Outcome.Alike Value.Similar (e.evalWithin fuel room ρ) (e.evalWithin fuel room ρ') := by
  induction fuel generalizing room e ρ ρ' with
  | zero =>
    rw [evalWithin, evalWithin]
    exact .unfinished
  | succ fuel ih =>
    cases room with
    | zero =>
      rw [evalWithin, evalWithin]
      exact .failed rfl
    | succ room =>
      cases e with
      | int => exact .done .int
      | bool => exact .done .bool
      | string => exact .done .string
      | var x =>
        have found := scopes x.name (List.mem_singleton.2 rfl)
        rw [evalWithin, evalWithin]
        generalize ρ.get? x.name = o at found
        generalize ρ'.get? x.name = o' at found
        cases found with
        | none => exact .failed rfl
        | some similar => exact .done similar
      | lam x body s => exact .done (Value.similar_closure (.inl rfl) scopes)
      | app f a s =>
        have inFunction : Scope.SimilarOn f.lookups ρ ρ' := scopes.mono fun x hx => Ascending.mem_union.2 (.inl hx)
        have inArgument : Scope.SimilarOn a.lookups ρ ρ' := scopes.mono fun x hx => Ascending.mem_union.2 (.inr hx)
        rw [evalWithin_app, evalWithin_app]
        refine (ih room inFunction).bind fun w w' hw => (ih room inArgument).bind fun v v' hv => ?_
        refine (Value.call_similar hw hv).bind fun c c' hc => ?_
        cases hc with
        | value h => exact .done h
        | enter scopes' => exact ih (room + 1) scopes'
      | letIn recursive x value body s =>
        have inValue : Scope.SimilarOn value.lookups ρ ρ' := scopes.mono fun y hy => Ascending.mem_union.2 (.inl hy)
        have inBody : Scope.SimilarOn (Ascending.remove x.name body.lookups) ρ ρ' :=
          scopes.mono fun y hy => Ascending.mem_union.2 (.inr hy)
        rw [evalWithin_letIn, evalWithin_letIn]
        refine (ih room inValue).bind fun v v' hv => (Value.bound_similar recursive x.name hv).bind fun w w' hw => ?_
        exact ih (room + 1) (inBody.insert hw)
      | cond c t e s =>
        have inCondition : Scope.SimilarOn c.lookups ρ ρ' := scopes.mono fun x hx => Ascending.mem_union.2 (.inl hx)
        have inBranches : Scope.SimilarOn (Ascending.union t.lookups e.lookups) ρ ρ' :=
          scopes.mono fun x hx => Ascending.mem_union.2 (.inr hx)
        rw [evalWithin_cond, evalWithin_cond]
        refine (ih room inCondition).bind fun v v' hv => (Value.asBool_alike hv.look_eq).bind fun b _ eq => ?_
        subst eq
        cases b with
        | true => exact ih (room + 1) (inBranches.mono fun x hx => Ascending.mem_union.2 (.inl hx))
        | false => exact ih (room + 1) (inBranches.mono fun x hx => Ascending.mem_union.2 (.inr hx))

/-- An expression evaluates to one value, whatever the fuel and the room that let it end. -/
theorem evalWithin_done_inj {e : Expr} {fuel fuel' room room' : Nat} {v w : Value}
    (hv : e.evalWithin fuel room ρ = .done v) (hw : e.evalWithin fuel' room' ρ = .done w) : v = w := by
  have hv : e.evalWithin fuel room ρ = .ofExcept (.ok v) := hv
  have hw : e.evalWithin fuel' room' ρ = .ofExcept (.ok w) := hw
  exact Except.ok.inj (evalWithin_inj hv (Outcome.ok_ne_tooDeep v) hw (Outcome.ok_ne_tooDeep w))

/-- **A recursive `let` means the same as a plain one** when it binds a closure that has the name already, or one whose
function looks up neither the name it gets nor the name it had. After any number of steps both evaluations look the same:
neither has ended, or both have ended with the same number, boolean or text, with a function, or with errors of one
kind. -/
theorem letIn_recursive_look_eq {ρ : Scope} {x : Ident} {value : Expr} {n : Nat} {binder : String} {inner : Expr}
    {scope : Scope} {self? : Option String} (evaluates : value.eval n ρ = .done (.closure binder inner scope self?))
    (unused : self? = some x.name ∨
      ∀ y, y = x.name ∨ self? = some y → y ∉ Ascending.remove binder inner.lookups)
    (body : Expr) (s : Span) (fuel : Nat) :
    ((letIn true x value body s).eval fuel ρ).look = ((letIn false x value body s).eval fuel ρ).look := by
  have names : Value.SameName (Ascending.remove binder inner.lookups) (some x.name) self? := by
    refine unused.imp Eq.symm fun unused y hy => ⟨fun eq => ?_, fun eq => ?_⟩
    · exact unused y (.inl (Option.some.inj eq).symm) hy
    · exact unused y (.inr eq) hy
  have alike : Outcome.Alike Value.Similar ((letIn true x value body s).eval fuel ρ)
      ((letIn false x value body s).eval fuel ρ) := by
    rw [eval, eval, fullRoom]
    cases fuel with
    | zero =>
      rw [evalWithin, evalWithin]
      exact .unfinished
    | succ fuel =>
      rw [evalWithin_letIn, evalWithin_letIn]
      cases bound : value.evalWithin fuel maxDepth ρ with
      | unfinished => exact .unfinished
      | failed err => exact .failed rfl
      | done v =>
        obtain rfl := evalWithin_done_inj bound evaluates
        have closures : (Value.closure binder inner scope (some x.name)).Similar (.closure binder inner scope self?) :=
          Value.similar_closure names (Scope.similarOn_refl _ scope)
        exact evalWithin_similar fuel (maxDepth + 1) ((Scope.similarOn_refl _ ρ).insert closures)
  exact alike.look_eq_of fun _ _ h => h.look_eq

end Expr

/-- The prelude with `g = \n -> add n 1`, a closure that knows its name and makes no use of it. -/
def Scope.withSuccessor : Scope :=
  Scope.prelude.insert "g"
    (.closure "n" (.apps (.var ⟨"add", {}⟩) [.var ⟨"n", {}⟩, .int 1 {}]) Scope.prelude (some "g"))

/-- The prelude with `g = \n -> if int_equals n 0 then 7 else g (sub n 1)`, a closure that calls itself by its name. -/
def Scope.withCountdown : Scope :=
  Scope.prelude.insert "g"
    (.closure "n"
      (.cond (.apps (.var ⟨"int_equals", {}⟩) [.var ⟨"n", {}⟩, .int 0 {}]) (.int 7 {})
        (.app (.var ⟨"g", {}⟩) (.apps (.var ⟨"sub", {}⟩) [.var ⟨"n", {}⟩, .int 1 {}]) {}) {}) Scope.prelude (some "g"))

namespace Expr

/-- `let h = g in h 3`, recursive or not -/
def callAs (recursive : Bool) : Expr :=
  .letIn recursive ⟨"h", {}⟩ (.var ⟨"g", {}⟩) (.app (.var ⟨"h", {}⟩) (.int 3 {}) {}) {}

theorem letIn_recursive_look_eq_withSuccessor :
    ((callAs true).eval 20 .withSuccessor).look = some (.ok (.int 4)) ∧
      ((callAs false).eval 20 .withSuccessor).look = some (.ok (.int 4)) := by
  have evaluates : (var ⟨"g", {}⟩).eval 1 .withSuccessor = .done
      (.closure "n" (.apps (.var ⟨"add", {}⟩) [.var ⟨"n", {}⟩, .int 1 {}]) Scope.prelude (some "g")) := rfl
  have lookups : Ascending.remove "n" (apps (.var ⟨"add", {}⟩) [.var ⟨"n", {}⟩, .int 1 {}]).lookups = ["add"] := by
    decide
  have unused : ∀ y, y = "h" ∨ some "g" = some y →
      y ∉ Ascending.remove "n" (apps (.var ⟨"add", {}⟩) [.var ⟨"n", {}⟩, .int 1 {}]).lookups := by
    rw [lookups]
    rintro y (rfl | eq)
    · decide
    · cases eq
      decide
  have plain : ((callAs false).eval 20 .withSuccessor).look = some (.ok (.int 4)) := rfl
  exact ⟨(letIn_recursive_look_eq (x := ⟨"h", {}⟩) evaluates (.inr unused) _ {} 20).trans plain, plain⟩

/-- The value of `let rec h = g in h 3` does not mention `h` and evaluates to a closure. Under its new name the closure
does not find itself any more. -/
theorem eval_look_withCountdown :
    "h" ∉ (var ⟨"g", {}⟩).freeVars ∧ (∃ c, (var ⟨"g", {}⟩).eval 1 .withCountdown = .done c ∧ c.look = .function) ∧
      ((callAs true).eval 20 .withCountdown).look = some (.error .unknownVariable) ∧
        ((callAs false).eval 20 .withCountdown).look = some (.ok (.int 7)) :=
  ⟨by decide, ⟨_, rfl, rfl⟩, rfl, rfl⟩

-- In `\y -> let rec f = f in 1` the name `f` is looked up, though it is not free.
example :
    let value := lam ⟨"y", {}⟩ (letIn true ⟨"f", {}⟩ (var ⟨"f", {}⟩) (int 1 {}) {}) {}
    value.freeVars = [] ∧ value.lookups = ["f"] := ⟨rfl, rfl⟩

end Expr

end Monolet
