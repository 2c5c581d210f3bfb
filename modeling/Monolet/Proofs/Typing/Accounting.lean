import Mathlib
import Monolet.Proofs.Eval.Safety
import Monolet.Proofs.Typing.Completeness

/-!
# What inference does with the unknowns it hands out

In an environment without unknowns, inference from the empty state knows only the unknowns it hands out: entries, types
and errors have no other ones (`Typing.Issued`). How many these are can be read off the expression, because lambdas,
applications and recursive lets take one each and nothing else does (`Infers.supply_eq`). The count holds for whole runs
only; a run that fails stops somewhere in between.
-/

namespace Monolet

namespace Expr

/-- The expression and everything inside it, one entry for each place. -/
def nodes : Expr → List Expr
  | int n s => [int n s]
  | bool b s => [bool b s]
  | string text s => [string text s]
  | var x => [var x]
  | lam x body s => lam x body s :: body.nodes
  | app f a s => app f a s :: (f.nodes ++ a.nodes)
  | letIn recursive x value body s => letIn recursive x value body s :: (value.nodes ++ body.nodes)
  | cond c t e s => cond c t e s :: (c.nodes ++ (t.nodes ++ e.nodes))

/-- Is the expression an application? -/
def isApp : Expr → Bool
  | app .. => true
  | _ => false

/-- Is the expression a recursive `let`? -/
def isLetRec : Expr → Bool
  | letIn recursive .. => recursive
  | _ => false

/-- The number of lambdas, applications and recursive lets. -/
def unknownsTaken (e : Expr) : Nat :=
  e.nodes.countP isLam + e.nodes.countP isApp + e.nodes.countP isLetRec

section

variable {x : Ident} {f a value body c t e : Expr} {span : Span}

theorem unknownsTaken_lam : (lam x body span).unknownsTaken = body.unknownsTaken + 1 := by
  simp only [unknownsTaken, nodes, List.countP_cons, isLam, isApp, isLetRec]
  grind

theorem unknownsTaken_app : (app f a span).unknownsTaken = f.unknownsTaken + a.unknownsTaken + 1 := by
  simp only [unknownsTaken, nodes, List.countP_cons, List.countP_append, isLam, isApp, isLetRec]
  grind

theorem unknownsTaken_letIn {recursive : Bool} :
    (letIn recursive x value body span).unknownsTaken =
      value.unknownsTaken + body.unknownsTaken + if recursive then 1 else 0 := by
  simp only [unknownsTaken, nodes, List.countP_cons, List.countP_append, isLam, isApp, isLetRec]
  grind

theorem unknownsTaken_cond :
    (cond c t e span).unknownsTaken = c.unknownsTaken + t.unknownsTaken + e.unknownsTaken := by
  simp only [unknownsTaken, nodes, List.countP_cons, List.countP_append, isLam, isApp, isLetRec]
  grind

end

end Expr

/-- A run that succeeds hands out one unknown for each lambda, application and recursive `let`. -/
theorem Infers.supply_eq {Γ : TypeEnv} {e : Expr} {s s' : CheckState} {t : Ty} (h : Infers Γ e s t s') :
    s'.supply = s.supply + e.unknownsTaken := by
  induction h with
  | int | bool | string | var => rfl
  | lam _ ih =>
    simp only [Expr.unknownsTaken_lam, ih]
    omega
  | app _ _ _ ihf iha =>
    simp only [Expr.unknownsTaken_app, iha, ihf]
    omega
  | letIn _ _ ihv ihb =>
    simp only [Expr.unknownsTaken_letIn, Bool.false_eq_true, if_false, ihb, ihv]
    omega
  | letRec _ _ _ ihv ihb =>
    simp only [Expr.unknownsTaken_letIn, if_true, ihb, ihv]
    omega
  | cond _ _ _ _ _ ihc iht ihe =>
    simp only [Expr.unknownsTaken_cond, ihe, iht, ihc]
    omega

namespace Check

/-- **Unknowns accounted for.** Let inference run from the empty state, in an environment without unknowns. All unknowns
with entries, in entries and in the type or the error are among those handed out. If it succeeds, there is one for each
lambda, application and recursive `let`, and the resolved type has only unknowns without an entry. -/
theorem infer_accounts {Γ : TypeEnv} (closed : Γ.Closed) (e : Expr) :
    (∀ t s, infer Γ e {} = .ok t s →
      s.subst.Issued s.supply ∧ t.Issued s.supply ∧
      s.supply = e.nodes.countP Expr.isLam + e.nodes.countP Expr.isApp + e.nodes.countP Expr.isLetRec ∧
      ∃ u, e.infer Γ = .ok u ∧ u.Issued s.supply ∧ ∀ id, u.mentions id = true → s.subst.get? id = none) ∧
    ∀ err s, infer Γ e {} = .error err s →
      s.subst.Issued s.supply ∧ err.Issued s.supply ∧ e.infer Γ = .error err := by
  constructor
  · intro t s ran
    have run := infers_of_infer ran
    obtain ⟨state, type⟩ := run.issued CheckState.issued_empty closed.issued
    have count : s.supply = e.unknownsTaken := by simpa using run.supply_eq
    refine ⟨state.entries, type, count, s.subst.apply t, ?_, state.entries.apply type, ?_⟩
    · exact Expr.infer_eq_ok_iff.2 ⟨t, s, run, rfl⟩
    · exact fun id mentioned => Subst.get?_of_mentions_apply state.acyclic mentioned
  · intro err s ran
    have state := infer_issued CheckState.issued_empty closed.issued e
    rw [after_of_error ran] at state
    exact ⟨state.entries, infer_error_issued ran CheckState.issued_empty closed.issued, Expr.infer_eq_error_iff.2 ⟨s, ran⟩⟩

end Check

/-- `let rec f = \x -> f (succ x) in f` -/
def Expr.climbing : Expr :=
  .letIn true ⟨"f", {}⟩
    (.lam ⟨"x", {}⟩ (.app (.var ⟨"f", {}⟩) (.app (.var ⟨"succ", {}⟩) (.var ⟨"x", {}⟩) {}) {}) {}) (.var ⟨"f", {}⟩) {}

/-- `let rec f = \x -> x x in \y -> y` -/
def Expr.boundToItself : Expr :=
  .letIn true ⟨"f", {}⟩ (.lam ⟨"x", {}⟩ (.app (.var ⟨"x", {}⟩) (.var ⟨"x", {}⟩) {}) {})
    (.lam ⟨"y", {}⟩ (.var ⟨"y", {}⟩) {}) {}

/-- Four unknowns are handed out for the first expression, and three of them are solved. The second one fails before its
last lambda. -/
theorem Check.infer_accounts_climbing :
    TypeEnv.Closed (NameMap.insert {} "succ" (.fn .int .int)) ∧
    (∃ s, infer (NameMap.insert {} "succ" (.fn .int .int)) Expr.climbing {} = .ok (.fn .int (.unknown 4)) s ∧
      s.subst.get? 1 = some (.fn .int (.unknown 4)) ∧ s.subst.Issued 4 ∧ s.supply = 4 ∧
      Expr.climbing.nodes.countP Expr.isLam + Expr.climbing.nodes.countP Expr.isApp +
        Expr.climbing.nodes.countP Expr.isLetRec = 4 ∧
      Expr.climbing.infer (NameMap.insert {} "succ" (.fn .int .int)) = .ok (.fn .int (.unknown 4)) ∧
      s.subst.get? 4 = none) ∧
    ∃ s, infer (NameMap.insert {} "succ" (.fn .int .int)) Expr.boundToItself {} =
        .error (.unification (.occurs 2 (.fn (.unknown 2) (.unknown 3))) {}) s ∧
      s.supply = 3 ∧ TypeError.Issued 3 (.unification (.occurs 2 (.fn (.unknown 2) (.unknown 3))) {}) := by
  have closed : TypeEnv.Closed (NameMap.insert {} "succ" (.fn .int .int)) := TypeEnv.closed_empty.insert fun _ => rfl
  have ran : infer (NameMap.insert {} "succ" (.fn .int .int)) Expr.climbing {} =
      .ok (.fn .int (.unknown 4)) ⟨⟨[(1, .fn .int (.unknown 4)), (2, .int), (3, .int)], by simp⟩, 4⟩ := by cbv
  have failed : infer (NameMap.insert {} "succ" (.fn .int .int)) Expr.boundToItself {} =
      .error (.unification (.occurs 2 (.fn (.unknown 2) (.unknown 3))) {}) ⟨.empty, 3⟩ := by cbv
  have typed : Expr.climbing.infer (NameMap.insert {} "succ" (.fn .int .int)) = .ok (.fn .int (.unknown 4)) := by cbv
  obtain ⟨entries, -, count, u, found, -, unsolved⟩ := (infer_accounts closed Expr.climbing).1 _ _ ran
  obtain ⟨-, about, -⟩ := (infer_accounts closed Expr.boundToItself).2 _ _ failed
  rw [typed] at found
  cases found
  exact ⟨closed, ⟨_, ran, rfl, entries, rfl, count.symm, typed, unsolved 4 rfl⟩, _, failed, rfl, about⟩

end Monolet
