import Mathlib
import Monolet.Proofs.Typing.Constraints

/-!
# Sessions on one check state

A check state may serve many calls: it hands out unknowns, unifies types and infers types of expressions, and what one
call has found, even a call that failed, the next one finds. What a single call does to the state is
`Request.run_kept`. A session is a list of calls, so it keeps whatever every call keeps.

A substitution refuses a cyclic solution on its own account. Unification never makes it do so: the errors of a
call come from an equation that unification itself refused, or from an unbound name (`Check.infer_genuine`).
-/

namespace Monolet

/-- A call on a check state. -/
inductive Request where
  | fresh
  | unify (left right : Ty)
  | infer (Γ : TypeEnv) (e : Expr)

/-- What a call came back with. -/
inductive Reply where
  | type (ty : Ty)
  | unified
  | notUnified (error : UnifyError)
  | notTyped (error : TypeError)

/-- Did the substitution refuse a solution? -/
def Reply.refusedCycle : Reply → Bool
  | notUnified (.cyclic _) | notTyped (.unification (.cyclic _) _) => true
  | _ => false

namespace Request

/-- The reply to a call, and the state that it leaves. -/
def run (s : CheckState) : Request → Reply × CheckState
  | fresh =>
    match (Check.fresh : Check Empty Ty) s with
    | .ok ty s' => (.type ty, s')
  | unify left right =>
    match Check.unify left right s with
    | .ok () s' => (.unified, s')
    | .error e s' => (.notUnified e, s')
  | infer Γ e =>
    match Check.infer Γ e s with
    | .ok ty s' => (.type ty, s')
    | .error e s' => (.notTyped e, s')

/-- The state that a session leaves. -/
def runAll (s : CheckState) (calls : List Request) : CheckState := calls.foldl (fun s call => (call.run s).2) s

end Request

/-! ## Errors -/

/-- The error comes from an unbound name, or from an equation that unification refused. -/
inductive TypeError.Genuine : TypeError → Prop where
  | unbound (name : String) (span : Span) : Genuine (.unknownVariable name span)
  | refused {e : Equation} {err : UnifyError} (h : e.Refused err) (span : Span) : Genuine (.unification err span)

namespace Check

variable {s s' : CheckState}

theorem unify_refused {l r : Ty} {err : UnifyError} (acyclic : s.subst.Acyclic) (failed : unify l r s = .error err s') :
    ∃ e : Equation, e.Refused err := by
  obtain ⟨q, -, ends⟩ := Subst.unify_runs acyclic l r
  rw [unify] at failed
  cases result : Subst.unify l r s.subst with
  | ok u σ =>
    rw [result] at failed
    cases failed
  | error err' σ =>
    rw [result] at failed ends
    cases failed
    cases ends with
    | refused h => exact ⟨_, h⟩

theorem enforce_genuine {c : Constraint} {err : TypeError} (acyclic : s.subst.Acyclic)
    (failed : c.enforce s = .error err s') : err.Genuine := by
  cases c with
  | unbound name span =>
    cases failed
    exact .unbound name span
  | equal l r span =>
    rw [Constraint.enforce, unifyAt, EStateM.adaptExcept] at failed
    cases result : unify l r s with
    | ok u s₁ =>
      rw [result] at failed
      cases failed
    | error err' s₁ =>
      rw [result] at failed
      cases failed
      obtain ⟨e, refused⟩ := unify_refused acyclic result
      exact .refused refused span

theorem growing_enforce (c : Constraint) : c.enforce.Growing := by
  cases c with
  | equal l r span => exact growing_unifyAt span l r
  | unbound name span => exact growing_throw _

theorem enforceAll_genuine {cs : List Constraint} {err : TypeError} (acyclic : s.subst.Acyclic)
    (failed : enforceAll cs s = .error err s') : err.Genuine := by
  induction cs generalizing s with
  | nil => cases failed
  | cons c cs ih =>
    rw [enforceAll] at failed
    simp only [bind, EStateM.bind] at failed
    cases first : c.enforce s with
    | ok u s₁ =>
      rw [first] at failed
      exact ih ((growing_enforce c).ok acyclic first).acyclic failed
    | error err' s₁ =>
      rw [first] at failed
      cases failed
      exact enforce_genuine acyclic first

/-- Inference fails for no other reasons than its constraints do. -/
theorem infer_genuine {Γ : TypeEnv} {e : Expr} {err : TypeError} (acyclic : s.subst.Acyclic)
    (failed : infer Γ e s = .error err s') : err.Genuine := by
  have mirrors := infer_mirrors e (Γ := Γ) acyclic (fun _ => rfl) s.supply
  rw [failed] at mirrors
  generalize enforced : enforceAll _ _ = r at mirrors
  cases mirrors with
  | error => exact enforceAll_genuine acyclic enforced

end Check

/-! ## Calls and sessions -/

namespace Request

variable {s : CheckState}

theorem run_unify_state (s : CheckState) (l r : Ty) : (run s (unify l r)).2 = (Check.unify l r).after s := by
  rw [run, Check.after]
  cases Check.unify l r s <;> rfl

theorem run_infer_state (s : CheckState) (Γ : TypeEnv) (e : Expr) :
    (run s (infer Γ e)).2 = (Check.infer Γ e).after s := by
  rw [run, Check.after]
  cases Check.infer Γ e s <;> rfl

theorem supply_unify (s : CheckState) (l r : Ty) : ((Check.unify l r).after s).supply = s.supply := by
  rw [Check.after, Check.unify]
  cases Subst.unify l r s.subst <;> rfl

theorem refusedCycle_unify (acyclic : s.subst.Acyclic) (l r : Ty) : (run s (unify l r)).1.refusedCycle = false := by
  rw [run]
  cases result : Check.unify l r s with
  | ok u s' => rfl
  | error err s' =>
    obtain ⟨e, refused⟩ := Check.unify_refused acyclic result
    cases refused <;> rfl

theorem refusedCycle_infer (acyclic : s.subst.Acyclic) (Γ : TypeEnv) (e : Expr) :
    (run s (infer Γ e)).1.refusedCycle = false := by
  rw [run]
  cases result : Check.infer Γ e s with
  | ok ty s' => rfl
  | error err s' =>
    cases Check.infer_genuine acyclic result with
    | unbound => rfl
    | refused h => cases h <;> rfl

/-- What a call in state `s` does to the state, and what it does not come back with. -/
structure Kept (s : CheckState) (call : Request) : Prop where
  grows : s.Grows (call.run s).2
  supply : ∀ l r, call = .unify l r → (call.run s).2.supply = s.supply
  reply : (call.run s).1.refusedCycle = false

theorem run_kept (acyclic : s.subst.Acyclic) (call : Request) : call.Kept s := by
  cases call with
  | fresh => exact ⟨Check.growing_fresh (ε := Empty) s acyclic, nofun, rfl⟩
  | unify l r =>
    have state := run_unify_state s l r
    refine ⟨?_, fun _ _ _ => ?_, refusedCycle_unify acyclic l r⟩
    · rw [state]
      exact Check.growing_unify l r s acyclic
    · rw [state, supply_unify]
  | infer Γ e =>
    refine ⟨?_, nofun, refusedCycle_infer acyclic Γ e⟩
    rw [run_infer_state]
    exact Check.infer_growing e Γ s acyclic

theorem acyclic_runAll (acyclic : s.subst.Acyclic) (calls : List Request) : (runAll s calls).subst.Acyclic := by
  induction calls generalizing s with
  | nil => exact acyclic
  | cons call calls ih => exact ih (run_kept acyclic call).grows.acyclic

/-- **Sessions keep the substitution in order.** Take any calls on a state without cycles and look at one more: there
is still no cycle after it, every entry that was there before it is there with the same type, a unification has handed
out no unknown, and the substitution had no cyclic solution to refuse. -/
theorem run_keeps_solutions (s : CheckState) (acyclic : s.subst.Acyclic) (calls : List Request) (call : Request) :
    (call.run (runAll s calls)).2.subst.Acyclic ∧
      (∀ i t, (runAll s calls).subst.get? i = some t → (call.run (runAll s calls)).2.subst.get? i = some t) ∧
      (∀ l r, call = unify l r → (call.run (runAll s calls)).2.supply = (runAll s calls).supply) ∧
      (call.run (runAll s calls)).1.refusedCycle = false := by
  have kept := run_kept (acyclic_runAll acyclic calls) call
  exact ⟨kept.grows.acyclic, kept.grows.keeps, kept.supply, kept.reply⟩

end Request

/-- `u3 -> Int` against `Bool -> String`: the arguments are unified, the results cannot be. -/
def Request.halfway : Request := .unify (.fn (.unknown 3) .int) (.fn .bool .string)

/-- The solution of `u3` stays after the failure, and after the failing inference of `x 1` with `x : u3`. -/
theorem Request.run_keeps_solutions_halfway :
    Subst.chained.Acyclic ∧ (halfway.run ⟨.chained, 5⟩).1 = .notUnified (.mismatch .int .string) ∧
      (runAll ⟨.chained, 5⟩ [halfway]).subst.get? 3 = some .bool ∧
      ((infer (NameMap.insert {} "x" (.unknown 3)) (.app (.var ⟨"x", {}⟩) (.int 1 {}) {})).run
        (runAll ⟨.chained, 5⟩ [halfway])).2.subst.get? 3 = some .bool := by
  have acyclic : Subst.chained.Acyclic := (Subst.acyclic_empty.set rfl rfl).set rfl rfl
  have solved : (runAll ⟨.chained, 5⟩ [halfway]).subst.get? 3 = some .bool := by cbv
  obtain ⟨-, keeps, -, -⟩ := run_keeps_solutions ⟨.chained, 5⟩ acyclic [halfway]
    (infer (NameMap.insert {} "x" (.unknown 3)) (.app (.var ⟨"x", {}⟩) (.int 1 {}) {}))
  exact ⟨acyclic, by cbv, solved, keeps 3 .bool solved⟩

end Monolet
