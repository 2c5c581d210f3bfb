import Monolet.Proofs.Eval.Natural
import Monolet.Proofs.Eval.Safety

/-!
# Programs without recursion end

A closure's body may be entered any number of times, with arguments that are closures again, so no size goes down
during evaluation. What goes down is the type. A value is total at a function type when every call with an argument
that is total at the argument type returns a value that is total at the result type (`Value.Total`, by
recursion on the type). A typed expression without recursive `let` evaluates by the rules to a value that is total at
its type, provided that the names in scope are (`HasType.returns`). Nesting has no limit in the rules; evaluation,
which has one, ends with the same value or for want of depth.
-/

namespace Monolet

/-- Does the expression hold no recursive `let`? -/
def Expr.recursionFree : Expr → Bool
  | int .. | bool .. | string .. | var _ => true
  | lam _ body _ => body.recursionFree
  | app f a _ => f.recursionFree && a.recursionFree
  | letIn recursive _ value body _ => !recursive && (value.recursionFree && body.recursionFree)
  | cond c t e _ => c.recursionFree && (t.recursionFree && e.recursionFree)

/-- By the rules the expression evaluates to a value with property `P`. -/
def Expr.Returns (P : Value → Prop) (ρ : Scope) (e : Expr) : Prop := ∃ d v, Natural ρ e d (.ok v) ∧ P v

/-- What a call comes down to is a value with property `P`, or evaluates to one. -/
def Call.Returns (P : Value → Prop) : Call → Prop
  | .value v => P v
  | .enter ρ body => body.Returns P ρ

/-- A value of the type that, if it is a function, may be called with whatever is total at the argument type. -/
def Value.Total : Ty → Value → Prop
  | .fn arg res => fun f => ∀ a, Total arg a → ∃ c, f.call a = .ok c ∧ c.Returns (Total res)
  | t => fun v => v.fits t = true

/-- Every name that has a type is bound to a value that is total at the type. -/
def Scope.Total (ρ : Scope) (Γ : TypeEnv) : Prop :=
  ∀ x t, Γ.get? x = some t → ∃ v, ρ.get? x = some v ∧ v.Total t

theorem Scope.Total.insert {ρ : Scope} {Γ : TypeEnv} {x : String} {v : Value} {t : Ty} (h : ρ.Total Γ)
    (hv : v.Total t) : Scope.Total (ρ.insert x v) (Γ.insert x t) :=
  NameMap.related_insert h hv

/-! ## Typed expressions -/

/-- An application returns what the call returns. -/
theorem Expr.Returns.app {P Q R : Value → Prop} {ρ : Scope} {f a : Expr} (s : Span) (function : f.Returns P ρ)
    (argument : a.Returns Q ρ) (call : ∀ w v, P w → Q v → ∃ c, w.call v = .ok c ∧ c.Returns R) :
    (Expr.app f a s).Returns R ρ := by
  obtain ⟨d, w, function, hw⟩ := function
  obtain ⟨d', v, argument, hv⟩ := argument
  obtain ⟨c, called, returns⟩ := call w v hw hv
  cases w with
  | closure x body scope self? =>
    rw [Value.call_closure] at called
    cases called
    obtain ⟨d'', u, result, hu⟩ := returns
    exact ⟨_, u, .enter function argument result, hu⟩
  | primitive p args =>
    by_cases waiting : args.length + 1 < p.arity
    · rw [Value.call_waiting v waiting] at called
      cases called
      exact ⟨_, _, .hold function argument waiting, returns⟩
    · have full : p.arity ≤ args.length + 1 := by omega
      rw [Value.call_full v full] at called
      cases run : p.run (args ++ [v]) with
      | error err =>
        rw [run] at called
        cases called
      | ok u =>
        rw [run] at called
        cases called
        have rule := Natural.run (s := s) function argument full
        rw [run] at rule
        exact ⟨_, u, rule, returns⟩
  | int | bool | string => cases called

/-- A typed expression without recursion evaluates to a value that is total at its type. -/
theorem HasType.returns {Γ : TypeEnv} {ρ : Scope} {e : Expr} {t : Ty} (typed : HasType Γ e t)
    (free : e.recursionFree = true) (total : ρ.Total Γ) : e.Returns (Value.Total t) ρ := by
  induction typed generalizing ρ with
  | int => exact ⟨0, _, .int, rfl⟩
  | bool => exact ⟨0, _, .bool, rfl⟩
  | string => exact ⟨0, _, .string, rfl⟩
  | var found =>
    obtain ⟨v, bound, hv⟩ := total _ _ found
    exact ⟨0, v, .var bound, hv⟩
  | lam _ ih =>
    refine ⟨0, _, .lam, fun a ha => ?_⟩
    exact ⟨_, Value.call_closure .., ih free (total.insert ha)⟩
  | app _ _ ihf iha =>
    obtain ⟨freeF, freeA⟩ := Bool.and_eq_true_iff.1 free
    exact (ihf freeF total).app _ (iha freeA total) fun w v hw hv => hw v hv
  | letIn _ _ ihv ihb =>
    obtain ⟨-, rest⟩ := Bool.and_eq_true_iff.1 free
    obtain ⟨freeV, freeB⟩ := Bool.and_eq_true_iff.1 rest
    obtain ⟨d, v, bound, hv⟩ := ihv freeV total
    obtain ⟨d', w, result, hw⟩ := ihb freeB (total.insert hv)
    exact ⟨_, w, .letIn bound result, hw⟩
  | letRec => cases free
  | cond _ _ _ ihc iht ihe =>
    obtain ⟨freeC, rest⟩ := Bool.and_eq_true_iff.1 free
    obtain ⟨freeT, freeE⟩ := Bool.and_eq_true_iff.1 rest
    obtain ⟨d, v, condition, hv⟩ := ihc freeC total
    obtain ⟨b, rfl⟩ : ∃ b, v = .bool b := by
      cases v with
      | bool b => exact ⟨b, rfl⟩
      | _ => cases hv
    cases b with
    | true =>
      obtain ⟨d', w, result, hw⟩ := iht freeT total
      exact ⟨_, w, .thenBranch condition result, hw⟩
    | false =>
      obtain ⟨d', w, result, hw⟩ := ihe freeE total
      exact ⟨_, w, .elseBranch condition result, hw⟩

/-! ## Primitive operations -/

theorem Value.inhabits_of_total {t : Ty} {v : Value} (base : t.isPrimitive = true) (h : v.Total t) :
    v.Inhabits t := by
  cases t with
  | int =>
    cases v with
    | int n => exact .int
    | _ => cases h
  | bool =>
    cases v with
    | bool b => exact .bool
    | _ => cases h
  | string =>
    cases v with
    | string s => exact .string
    | _ => cases h
  | fn | unknown => cases base

theorem Value.Inhabits.total {t : Ty} {v : Value} (base : t.isPrimitive = true) (h : v.Inhabits t) : v.Total t := by
  cases t with
  | int | bool | string => exact h.fits
  | fn | unknown => cases base

theorem Primitive.isPrimitive_of_mem_params (p : Primitive) : ∀ u ∈ p.params, u.isPrimitive = true := by
  cases p <;> decide

theorem Primitive.isPrimitive_result (p : Primitive) : p.result.isPrimitive = true := by
  cases p <;> rfl

/-- Operations take and yield numbers, booleans and texts only, so that being typed is enough for being total. -/
theorem Value.total_primitive {p : Primitive} {args : List Value} {t : Ty} (h : (primitive p args).Inhabits t) :
    (primitive p args).Total t := by
  induction t generalizing args with
  | int | bool | string | unknown => cases h.fits
  | fn arg res _ ih =>
    intro a ha
    have function := h
    cases h with
    | primitive waiting held rest =>
      obtain ⟨u, param, eq⟩ := p.curried_drop waiting
      obtain ⟨rfl, rfl⟩ := Ty.fn.inj (rest.trans eq)
      have base := p.isPrimitive_of_mem_params arg (List.mem_of_getElem? param)
      obtain ⟨c, called, inhabits⟩ := call_inhabits function (inhabits_of_total base ha)
      refine ⟨c, called, ?_⟩
      by_cases more : args.length + 1 < p.arity
      · rw [call_waiting a more] at called
        cases called
        cases inhabits with
        | value typed => exact ih typed
      · have full : p.arity ≤ args.length + 1 := by omega
        have nothing : p.params.drop (args.length + 1) = [] := by
          rw [List.drop_eq_nil_iff, p.length_params]
          exact full
        rw [nothing] at inhabits ⊢
        rw [call_full a full] at called
        cases inhabits with
        | value typed => exact typed.total p.isPrimitive_result
        | enter =>
          cases run : p.run (args ++ [a]) <;> rw [run] at called <;> cases called

theorem Scope.total_prelude : Scope.prelude.Total .prelude := by
  intro x t ht
  obtain ⟨v, bound, inhabits⟩ := Scope.models_prelude x t ht
  obtain ⟨p, operation, -⟩ := TypeEnv.get?_prelude ht
  obtain rfl := Option.some.inj (bound.symm.trans operation)
  exact ⟨_, bound, Value.total_primitive inhabits⟩

/-! ## Programs -/

/-- **Termination.** A program with an inferred type and without recursion ends, with a value or for want of depth. -/
theorem Expr.eval_terminates (e : Expr) (free : e.recursionFree = true) {t : Ty} (ok : e.infer .prelude = .ok t) :
    ∃ n, (∃ v, ∀ fuel, n ≤ fuel → e.eval fuel .prelude = .done v) ∨
      ∀ fuel, n ≤ fuel → e.eval fuel .prelude = .failed .tooDeep := by
  have typed := Expr.hasType_of_infer ok TypeEnv.closed_prelude .unknown
  obtain ⟨d, v, rule, -⟩ := typed.returns free Scope.total_prelude
  obtain ⟨n, settled⟩ := rule.settles fullRoom
  refine ⟨n, ?_⟩
  by_cases fits : d < fullRoom
  · refine .inl ⟨v, fun fuel more => ?_⟩
    rw [eval, settled fuel more, Outcome.capped, if_pos fits]
    rfl
  · refine .inr fun fuel more => ?_
    rw [eval, settled fuel more, Outcome.capped, if_neg fits]

/-- `let twice = \f -> \x -> f (f x) in twice (twice (add 1)) 0` -/
def Expr.addFour : Expr :=
  .letIn false ⟨"twice", {}⟩
    (.lam ⟨"f", {}⟩ (.lam ⟨"x", {}⟩
      (.app (.var ⟨"f", {}⟩) (.app (.var ⟨"f", {}⟩) (.var ⟨"x", {}⟩) {}) {}) {}) {})
    (.apps (.var ⟨"twice", {}⟩)
      [.app (.var ⟨"twice", {}⟩) (.app (.var ⟨"add", {}⟩) (.int 1 {}) {}) {}, .int 0 {}]) {}

theorem Expr.eval_terminates_addFour :
    addFour.recursionFree = true ∧ addFour.infer .prelude = .ok .int ∧
      ∃ n, (∃ v, ∀ fuel, n ≤ fuel → addFour.eval fuel .prelude = .done v) ∨
        ∀ fuel, n ≤ fuel → addFour.eval fuel .prelude = .failed .tooDeep := by
  have free : addFour.recursionFree = true := rfl
  have ok : addFour.infer .prelude = .ok .int := by cbv
  exact ⟨free, ok, Expr.eval_terminates addFour free ok⟩

end Monolet
