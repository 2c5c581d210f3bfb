import Monolet.Eval
import Monolet.Proofs.Typing.Soundness

/-!
# Well-typed programs do not go wrong

A value inhabits a type when it has the form that the type asks for, all the way down: a closure's body is typed in an
environment that its scope models, and a primitive operation holds arguments of the types it takes. Calling and
evaluating keep to this relation (`Value.call_inhabits`, `Expr.evalWithin_inhabits`), and no rule of evaluation
that would fail with anything but exhausted depth applies to such values.

A recursive `let` has to bind a lambda literal. Then the value of the binding is a new closure, which has no name of
its own to lose.

No value inhabits an unknown. An expression whose inferred type is an unknown therefore yields none.
-/

namespace Monolet

/-! ## Bindings of recursive lets -/

namespace Expr

/-- Is the expression a lambda literal? -/
def isLam : Expr → Bool
  | lam .. => true
  | _ => false

/-- Does every recursive `let` bind a lambda literal? -/
def recursesOnLambdas : Expr → Bool
  | int .. | bool .. | string .. | var _ => true
  | lam _ body _ => body.recursesOnLambdas
  | app f a _ => f.recursesOnLambdas && a.recursesOnLambdas
  | letIn recursive _ value body _ =>
    (!recursive || value.isLam) && (value.recursesOnLambdas && body.recursesOnLambdas)
  | cond c t e _ => c.recursesOnLambdas && (t.recursesOnLambdas && e.recursesOnLambdas)

theorem eq_lam_of_isLam {e : Expr} (h : e.isLam = true) : ∃ x body span, e = lam x body span := by
  cases e with
  | lam x body span => exact ⟨x, body, span, rfl⟩
  | _ => cases h

end Expr

/-! ## Types of primitive operations -/

namespace Primitive

/-- The types of the arguments. -/
def params : Primitive → List Ty
  | add | sub | intEquals => [.int, .int]
  | concat => [.string, .string]
  | intToString => [.int]

/-- The type of the result. -/
def result : Primitive → Ty
  | add | sub => .int
  | intEquals => .bool
  | concat | intToString => .string

theorem signature_eq (p : Primitive) : p.signature = .curried p.params p.result := by
  cases p <;> rfl

theorem length_params (p : Primitive) : p.params.length = p.arity := by
  cases p <;> rfl

/-- An operation that waits for an argument has a function type. -/
theorem curried_drop (p : Primitive) {n : Nat} (h : n < p.arity) :
    ∃ u, p.params[n]? = some u ∧
      Ty.curried (p.params.drop n) p.result = .fn u (.curried (p.params.drop (n + 1)) p.result) := by
  rw [← length_params] at h
  refine ⟨p.params[n], List.getElem?_eq_getElem h, ?_⟩
  rw [List.drop_eq_getElem_cons h]
  rfl

end Primitive

/-! ## Typed values -/

/-- The environment in which the body of a closure is typed, before its argument is bound. -/
def TypeEnv.withSelf (Γ : TypeEnv) (self? : Option String) (t : Ty) : TypeEnv :=
  match self? with
  | some name => Γ.insert name t
  | none => Γ

/-- The value has the form of the type, and so has everything that it holds. -/
inductive Value.Inhabits : Value → Ty → Prop where
  | int {n : Int64} : Inhabits (.int n) .int
  | bool {b : Bool} : Inhabits (.bool b) .bool
  | string {s : String} : Inhabits (.string s) .string
  | closure {binder : String} {body : Expr} {scope : Scope} {self? : Option String} {Γ : TypeEnv} {arg res : Ty}
      (bound : ∀ x t, Γ.get? x = some t → ∃ v, scope.get? x = some v)
      (models : ∀ x t v, Γ.get? x = some t → scope.get? x = some v → Inhabits v t)
      (lambdas : body.recursesOnLambdas = true)
      (typed : HasType ((Γ.withSelf self? (.fn arg res)).insert binder arg) body res) :
      Inhabits (.closure binder body scope self?) (.fn arg res)
  | primitive {p : Primitive} {args : List Value} {t : Ty}
      (waiting : args.length < p.arity)
      (held : ∀ (i : Nat) (u : Ty) (v : Value), p.params[i]? = some u → args[i]? = some v → Inhabits v u)
      (rest : t = .curried (p.params.drop args.length) p.result) :
      Inhabits (.primitive p args) t

/-- Every name that has a type is bound to a value of the type. -/
def Scope.Models (ρ : Scope) (Γ : TypeEnv) : Prop :=
  ∀ x t, Γ.get? x = some t → ∃ v, ρ.get? x = some v ∧ v.Inhabits t

/-- If names are bound to related things, they still are after one name is bound to related things. -/
theorem NameMap.related_insert {α β : Type} {R : α → β → Prop} {m : NameMap α} {m' : NameMap β} {x : String} {a : α}
    {b : β} (related : ∀ y c, m.get? y = some c → ∃ d, m'.get? y = some d ∧ R c d) (hab : R a b) :
    ∀ y c, (m.insert x a).get? y = some c → ∃ d, (m'.insert x b).get? y = some d ∧ R c d := by
  intro y c hc
  rw [NameMap.get?_insert] at hc ⊢
  split at hc
  · cases hc
    exact ⟨b, by simp [*], hab⟩
  · rename_i ne
    rw [if_neg ne]
    exact related y c hc

theorem Scope.Models.insert {ρ : Scope} {Γ : TypeEnv} {x : String} {v : Value} {t : Ty} (h : ρ.Models Γ)
    (hv : v.Inhabits t) : Scope.Models (ρ.insert x v) (Γ.insert x t) :=
  NameMap.related_insert h hv

theorem Value.inhabits_closure {binder : String} {body : Expr} {ρ : Scope} {self? : Option String} {Γ : TypeEnv}
    {arg res : Ty} (models : ρ.Models Γ) (lambdas : body.recursesOnLambdas = true)
    (typed : HasType ((Γ.withSelf self? (.fn arg res)).insert binder arg) body res) :
    (Value.closure binder body ρ self?).Inhabits (.fn arg res) := by
  refine .closure (fun x t ht => ?_) (fun x t v ht hv => ?_) lambdas typed
  · obtain ⟨v, hv, -⟩ := models x t ht
    exact ⟨v, hv⟩
  · obtain ⟨v', hv', inhabits⟩ := models x t ht
    rw [hv] at hv'
    cases hv'
    exact inhabits

namespace Value

variable {v f a : Value} {t arg res : Ty}

/-- The value has the outermost form of the type. No value has the form of an unknown. -/
def fits : Value → Ty → Bool
  | int _, .int | bool _, .bool | string _, .string => true
  | closure .., .fn .. | primitive .., .fn .. => true
  | _, _ => false

theorem Inhabits.fits (h : v.Inhabits t) : v.fits t = true := by
  cases h with
  | @primitive p args _ waiting _ rest =>
    obtain ⟨u, -, eq⟩ := p.curried_drop waiting
    rw [rest, eq]
    rfl
  | _ => rfl

theorem Inhabits.asInt (h : v.Inhabits .int) : ∃ n, v.asInt = .ok n := by
  have form := h.fits
  cases v with
  | int n => exact ⟨n, rfl⟩
  | _ => cases form

theorem Inhabits.asBool (h : v.Inhabits .bool) : ∃ b, v.asBool = .ok b := by
  have form := h.fits
  cases v with
  | bool b => exact ⟨b, rfl⟩
  | _ => cases form

theorem Inhabits.asString (h : v.Inhabits .string) : ∃ s, v.asString = .ok s := by
  have form := h.fits
  cases v with
  | string s => exact ⟨s, rfl⟩
  | _ => cases form

end Value

/-! ## Calls -/

/-- An operation runs on arguments of its types and yields a value of its type. -/
theorem Primitive.run_inhabits (p : Primitive) {args : List Value} (full : args.length = p.arity)
    (held : ∀ (i : Nat) (u : Ty) (v : Value), p.params[i]? = some u → args[i]? = some v → v.Inhabits u) :
    ∃ v, p.run args = .ok v ∧ v.Inhabits p.result := by
  have one (u : Ty) (h : p.params = [u]) (n : p.arity = 1) : ∃ x, args = [x] ∧ x.Inhabits u := by
    obtain ⟨x, rfl⟩ := List.length_eq_one_iff.1 (full.trans n)
    exact ⟨x, rfl, held 0 u x (by rw [h]; rfl) rfl⟩
  have two (u : Ty) (h : p.params = [u, u]) (n : p.arity = 2) :
      ∃ x y, args = [x, y] ∧ x.Inhabits u ∧ y.Inhabits u := by
    obtain ⟨x, y, rfl⟩ := List.length_eq_two.1 (full.trans n)
    exact ⟨x, y, rfl, held 0 u x (by rw [h]; rfl) rfl, held 1 u y (by rw [h]; rfl) rfl⟩
  have twoInts (h : p.params = [.int, .int]) (n : p.arity = 2) :
      ∃ x y a b, args = [x, y] ∧ x.asInt = .ok a ∧ y.asInt = .ok b := by
    obtain ⟨x, y, rfl, hx, hy⟩ := two .int h n
    obtain ⟨a, ha⟩ := hx.asInt
    obtain ⟨b, hb⟩ := hy.asInt
    exact ⟨x, y, a, b, rfl, ha, hb⟩
  cases p with
  | add =>
    obtain ⟨x, y, a, b, rfl, ha, hb⟩ := twoInts rfl rfl
    exact ⟨.int (a + b), by rw [run, ha, hb]; rfl, .int⟩
  | sub =>
    obtain ⟨x, y, a, b, rfl, ha, hb⟩ := twoInts rfl rfl
    exact ⟨.int (a - b), by rw [run, ha, hb]; rfl, .int⟩
  | intEquals =>
    obtain ⟨x, y, a, b, rfl, ha, hb⟩ := twoInts rfl rfl
    exact ⟨.bool (a = b), by rw [run, ha, hb]; rfl, .bool⟩
  | concat =>
    obtain ⟨x, y, rfl, hx, hy⟩ := two .string rfl rfl
    obtain ⟨s, hs⟩ := hx.asString
    obtain ⟨t, ht⟩ := hy.asString
    exact ⟨.string (s ++ t), by rw [run, hs, ht]; rfl, .string⟩
  | intToString =>
    obtain ⟨x, rfl, hx⟩ := one .int rfl rfl
    obtain ⟨n, hn⟩ := hx.asInt
    exact ⟨.string (Decimal.ofInt n.toInt), by rw [run, hn]; rfl, .string⟩

/-- What a call comes down to has the type: a value at once, or a body that is typed in what its scope models. -/
inductive Call.Inhabits : Call → Ty → Prop where
  | value {v : Value} {t : Ty} : v.Inhabits t → Inhabits (.value v) t
  | enter {ρ : Scope} {Γ : TypeEnv} {body : Expr} {t : Ty} :
      ρ.Models Γ → body.recursesOnLambdas = true → HasType Γ body t → Inhabits (.enter ρ body) t

namespace Value

variable {f a : Value} {arg res : Ty}

/-- Calling a function with an argument of its type does not fail. -/
theorem call_inhabits (hf : f.Inhabits (.fn arg res)) (ha : a.Inhabits arg) :
    ∃ c, f.call a = .ok c ∧ c.Inhabits res := by
  have self := hf
  cases hf with
  | @closure binder body scope self? Γ _ _ bound models lambdas typed =>
    have modelled : Scope.Models scope Γ := by
      intro x t ht
      obtain ⟨v, hv⟩ := bound x t ht
      exact ⟨v, hv, models x t v ht hv⟩
    refine ⟨_, rfl, .enter ?_ lambdas typed⟩
    cases self? with
    | none => exact modelled.insert ha
    | some name => exact (modelled.insert self).insert ha
  | @primitive p args _ waiting held rest =>
    obtain ⟨u, param, eq⟩ := p.curried_drop waiting
    rw [eq] at rest
    obtain ⟨rfl, rfl⟩ := Ty.fn.inj rest
    have held' : ∀ (i : Nat) (w : Ty) (v : Value),
        p.params[i]? = some w → (args ++ [a])[i]? = some v → v.Inhabits w := by
      intro i w v hw hv
      rw [List.getElem?_append] at hv
      split at hv
      · exact held i w v hw hv
      · -- the new argument stands where the held ones end
        rw [List.getElem?_singleton] at hv
        split at hv
        · have last : i = args.length := by omega
          rw [last, param] at hw
          cases hw
          cases hv
          exact ha
        · cases hv
    rw [call]
    split
    · rename_i more
      exact ⟨_, rfl, .value (.primitive more held' (by simp))⟩
    · rename_i full
      have full : (args ++ [a]).length = p.arity := by
        rw [List.length_append, List.length_singleton] at full ⊢
        omega
      obtain ⟨v, run, inhabits⟩ := p.run_inhabits full held'
      refine ⟨.value v, by rw [run]; rfl, .value ?_⟩
      have nothing : p.params.drop (args.length + 1) = [] := by
        rw [List.drop_eq_nil_iff, p.length_params, ← full, List.length_append, List.length_singleton]
      rw [nothing]
      exact inhabits

end Value

/-! ## Evaluation -/

namespace Outcome

variable {α β : Type} {P : α → Prop} {Q : β → Prop}

/-- A result is as it should be, and the only error is exhausted depth. -/
def Yields (P : α → Prop) : Outcome α → Prop
  | done a => P a
  | failed e => e = .tooDeep
  | unfinished => True

theorem Yields.bind {x : Outcome α} {f : α → Outcome β} (hx : x.Yields P) (hf : ∀ a, P a → (f a).Yields Q) :
    (x >>= f).Yields Q := by
  cases x with
  | done a => exact hf a hx
  | failed e => exact hx
  | unfinished => trivial

theorem yields_ofExcept {x : Except EvalError α} {a : α} (ok : x = .ok a) (h : P a) : (ofExcept x).Yields P := by
  rw [ok]
  exact h

end Outcome

theorem Expr.evalWithin_lam (fuel room : Nat) (ρ : Scope) (x : Ident) (body : Expr) (span : Span) :
    ((Expr.lam x body span).evalWithin fuel room ρ).Yields (· = .closure x.name body ρ none) := by
  cases fuel with
  | zero =>
    rw [evalWithin]
    trivial
  | succ fuel => cases room <;> rfl

/-- Evaluation of a typed expression in a scope that models its environment. -/
theorem Expr.evalWithin_inhabits {Γ : TypeEnv} {ρ : Scope} {e : Expr} {t : Ty} (fuel room : Nat)
    (typed : HasType Γ e t) (lambdas : e.recursesOnLambdas = true) (models : ρ.Models Γ) :
    (e.evalWithin fuel room ρ).Yields (·.Inhabits t) := by
  induction fuel generalizing Γ ρ e t room with
  | zero =>
    rw [evalWithin]
    trivial
  | succ fuel ih =>
    cases room with
    | zero =>
      rw [evalWithin]
      rfl
    | succ room =>
      cases typed with
      | int => exact .int
      | bool => exact .bool
      | string => exact .string
      | var found =>
        obtain ⟨v, hv, inhabits⟩ := models _ _ found
        rw [evalWithin, hv]
        exact inhabits
      | lam body => exact Value.inhabits_closure models lambdas body
      | app typedF typedA =>
        obtain ⟨lambdasF, lambdasA⟩ := Bool.and_eq_true_iff.1 lambdas
        rw [evalWithin]
        refine (ih room typedF lambdasF models).bind fun fv hf => ?_
        refine (ih room typedA lambdasA models).bind fun av ha => ?_
        obtain ⟨c, called, inhabits⟩ := Value.call_inhabits hf ha
        refine (Outcome.yields_ofExcept (P := fun c => c.Inhabits t) called inhabits).bind fun c hc => ?_
        cases hc with
        | value hv => exact hv
        | enter models' lambdas' typed' => exact ih (room + 1) typed' lambdas' models'
      | letIn typedV typedB =>
        obtain ⟨-, rest⟩ := Bool.and_eq_true_iff.1 lambdas
        obtain ⟨lambdasV, lambdasB⟩ := Bool.and_eq_true_iff.1 rest
        rw [evalWithin]
        refine (ih room typedV lambdasV models).bind fun v hv => ?_
        exact ih (room + 1) typedB lambdasB (models.insert hv)
      | @letRec _ x _ _ _ _ _ typedV typedB =>
        obtain ⟨literal, rest⟩ := Bool.and_eq_true_iff.1 lambdas
        obtain ⟨lambdasV, lambdasB⟩ := Bool.and_eq_true_iff.1 rest
        obtain ⟨y, body, span, rfl⟩ := eq_lam_of_isLam (by simpa using literal)
        cases typedV with
        | @lam _ _ _ _ arg res typedBody =>
          have self : (Value.closure y.name body ρ (some x.name)).Inhabits (.fn arg res) :=
            Value.inhabits_closure models lambdasV typedBody
          rw [evalWithin]
          refine (evalWithin_lam fuel room ρ y body span).bind fun v hv => ?_
          subst hv
          exact ih (room + 1) typedB lambdasB (models.insert self)
      | cond typedC typedT typedE =>
        obtain ⟨lambdasC, rest⟩ := Bool.and_eq_true_iff.1 lambdas
        obtain ⟨lambdasT, lambdasE⟩ := Bool.and_eq_true_iff.1 rest
        rw [evalWithin]
        refine (ih room typedC lambdasC models).bind fun v hv => ?_
        obtain ⟨b, isBool⟩ := hv.asBool
        refine (Outcome.yields_ofExcept (P := fun _ => True) isBool trivial).bind fun b _ => ?_
        cases b with
        | true => exact ih (room + 1) typedT lambdasT models
        | false => exact ih (room + 1) typedE lambdasE models

/-! ## Programs -/

theorem NameMap.ofList_map {α β : Type} (f : α → β) (l : List (String × α)) :
    NameMap.ofList (l.map fun (name, a) => (name, f a)) = (NameMap.ofList l).map f := by
  have onto (m : NameMap α) : (l.map fun (name, a) => (name, f a)).foldl (fun m (name, b) => m.insert name b)
      (m.map f) = (l.foldl (fun m (name, a) => m.insert name a) m).map f := by
    induction l generalizing m with
    | nil => rfl
    | cons b l ih => exact ih (m.insert b.1 b.2)
  exact onto {}

/-- A name with a type in the prelude names an operation with that type. -/
theorem TypeEnv.get?_prelude {x : String} {t : Ty} (h : TypeEnv.prelude.get? x = some t) :
    ∃ p : Primitive, Scope.prelude.get? x = some (.primitive p []) ∧ t = p.signature := by
  rw [TypeEnv.prelude, NameMap.ofList_map, NameMap.get?_map] at h
  obtain ⟨p, hp, rfl⟩ := Option.map_eq_some_iff.1 h
  refine ⟨p, ?_, rfl⟩
  rw [Scope.prelude, NameMap.ofList_map (Value.primitive · []), NameMap.get?_map, hp]
  rfl

theorem TypeEnv.closed_prelude : TypeEnv.prelude.Closed := by
  intro x t ht id
  obtain ⟨p, -, rfl⟩ := TypeEnv.get?_prelude ht
  cases p <;> rfl

theorem Scope.models_prelude : Scope.prelude.Models .prelude := by
  intro x t ht
  obtain ⟨p, hv, rfl⟩ := TypeEnv.get?_prelude ht
  refine ⟨_, hv, .primitive ?_ (fun _ _ _ _ none_held => by cases none_held) p.signature_eq⟩
  cases p <;> decide

/-- **Type safety.** Evaluating a program with an inferred type fails at most for its depth. A value that it ends with
has the form of the type, and it ends with none when the type is an unknown. -/
theorem Expr.eval_safe (e : Expr) (lambdas : e.recursesOnLambdas = true) {t : Ty} (ok : e.infer .prelude = .ok t)
    (fuel : Nat) :
    (∀ err, e.eval fuel .prelude = .failed err → err = .tooDeep) ∧
      (∀ v, e.eval fuel .prelude = .done v → v.fits t = true) ∧
        ∀ id, t = .unknown id → ∀ v, e.eval fuel .prelude ≠ .done v := by
  have typed := Expr.hasType_of_infer ok TypeEnv.closed_prelude .unknown
  rw [Ty.subst_unknown] at typed
  have yields := evalWithin_inhabits fuel fullRoom typed lambdas Scope.models_prelude
  have form : ∀ v, e.eval fuel .prelude = .done v → v.fits t = true := by
    intro v done
    rw [← eval, done] at yields
    exact yields.fits
  refine ⟨fun err failed => ?_, form, ?_⟩
  · rw [← eval, failed] at yields
    exact yields
  · rintro id rfl v done
    have := form v done
    cases v <;> cases this

/-- `let rec f = \n -> if int_equals n 0 then "end" else f (sub n 1) in f 1` -/
def Expr.countdown : Expr :=
  .letIn true ⟨"f", {}⟩
    (.lam ⟨"n", {}⟩
      (.cond (.apps (.var ⟨"int_equals", {}⟩) [.var ⟨"n", {}⟩, .int 0 {}])
        (.string "end" {})
        (.app (.var ⟨"f", {}⟩) (.apps (.var ⟨"sub", {}⟩) [.var ⟨"n", {}⟩, .int 1 {}]) {}) {}) {})
    (.app (.var ⟨"f", {}⟩) (.int 1 {}) {}) {}

theorem Expr.eval_safe_countdown :
    countdown.recursesOnLambdas = true ∧ countdown.infer .prelude = .ok .string ∧
      countdown.eval 20 .prelude = .done (.string "end") ∧ (Value.string "end").fits .string = true := by
  have lambdas : countdown.recursesOnLambdas = true := rfl
  have ok : countdown.infer .prelude = .ok .string := by cbv
  have done : countdown.eval 20 .prelude = .done (.string "end") := rfl
  exact ⟨lambdas, ok, done, (Expr.eval_safe countdown lambdas ok 20).2.1 _ done⟩

end Monolet
