import Mathlib
import Monolet.Proofs.Typing.Issued
import Monolet.Proofs.Typing.Sessions

/-!
# Inference in a state that was used before

A session whose calls mention only unknowns handed out so far leaves entries that do the same
(`Request.issued_runAll`). A later inference in an environment without unknowns then reaches none of the old entries: to
it, the state is a new one with all unknowns moved up by the number handed out before (`FreshRenaming.ofState_shifted`).
-/

namespace Monolet

/-! ## Sessions -/

namespace Request

variable {s : CheckState} {calls : List Request}

/-- The call mentions only the first `n` unknowns. -/
def Issued (n : Nat) : Request → Prop
  | fresh => True
  | unify left right => left.Issued n ∧ right.Issued n
  | infer Γ _ => Γ.Issued n

/-- Every call mentions only unknowns that were handed out before it. -/
def AllIssued (s : CheckState) : List Request → Prop
  | [] => True
  | call :: calls => call.Issued s.supply ∧ AllIssued (call.run s).2 calls

theorem issued_run {call : Request} (hs : s.Issued) (h : call.Issued s.supply) : (call.run s).2.Issued := by
  cases call with
  | fresh => exact hs.next
  | unify l r =>
    rw [run_unify_state]
    exact Check.unify_issued hs h.1 h.2
  | infer Γ e =>
    rw [run_infer_state]
    exact Check.infer_issued hs h e

theorem issued_runAll (hs : s.Issued) (h : AllIssued s calls) : (runAll s calls).Issued := by
  induction calls generalizing s with
  | nil => exact hs
  | cons call calls ih => exact ih (issued_run hs h.1) h.2

end Request

/-! ## Inference later in a session -/

/-- All unknowns to be handed out, moved up behind those that a state has handed out. -/
def FreshRenaming.shifted (s : CheckState) (last : Nat) : FreshRenaming where
  map := (· + s.supply)
  used := {i | 0 < i}
  injOn := (add_left_injective s.supply).injOn
  others := s.subst
  shift := s.supply
  last := last
  ahead := fun _ pos _ => ⟨pos, rfl⟩

/-- A state that was used is to a new one as the moved unknowns are to theirs: it has no entries for them yet. -/
theorem FreshRenaming.ofState_shifted {s : CheckState} (h : s.Issued) (last : Nat) : (shifted s last).OfState {} s := by
  refine ⟨⟨Subst.acyclic_empty, h.acyclic, fun i pos => ?_, fun i _ t ht => ?_, fun _ _ => rfl⟩, (Nat.zero_add _).symm⟩
  · cases found : s.subst.get? (i + s.supply) with
    | none => exact found
    | some t =>
      have := (h.entries _ t found).1
      have : 0 < i := pos
      omega
  · cases ht

theorem FreshRenaming.ofEnv_shifted {Γ : TypeEnv} (closed : Γ.Closed) (s : CheckState) (last : Nat) :
    (shifted s last).OfEnv Γ Γ := by
  intro x
  cases found : Γ.get? x with
  | none => exact .none
  | some t =>
    have none {i : Nat} (hi : t.mentions i = true) : False := by
      rw [closed x t found i] at hi
      cases hi
    exact .some ⟨(Ty.subst_eq_self fun i hi => (none hi).elim).symm, fun i hi => (none hi).elim⟩

/-- **Inference in a used state.** Take a state that a session left whose calls mention only unknowns handed out before
them. Inference there, in an environment without unknowns, returns the type or the error that it returns in a new state,
with all unknowns moved up by the number handed out in the session. The entries the session left stay as they are, and
its unknowns get no new ones. -/
theorem Request.infer_shifted {calls : List Request} {s : CheckState} (issued : AllIssued {} calls)
    (reached : runAll {} calls = s) {Γ : TypeEnv} (closed : Γ.Closed) (e : Expr) :
    (Check.infer Γ e >>= Check.zonk).outcome s = Expr.renameOutcome (· + s.supply) (e.infer Γ) ∧
    (∀ i t, s.subst.get? i = some t → ((Check.infer Γ e >>= Check.zonk).after s).subst.get? i = some t) ∧
    ∀ i ≤ s.supply, ((Check.infer Γ e >>= Check.zonk).after s).subst.get? i = s.subst.get? i := by
  subst reached
  have used := issued_runAll CheckState.issued_empty issued
  generalize runAll {} calls = s at used
  let ρ := FreshRenaming.shifted s ((Check.infer Γ e >>= Check.zonk).after {}).supply
  have follows := FreshRenaming.infer_zonk_follows (ρ := ρ) e Γ Γ
  have start : ρ.OfState {} s := FreshRenaming.ofState_shifted used _
  have env : ρ.OfEnv Γ Γ := FreshRenaming.ofEnv_shifted closed s _
  have others (i : Nat) (le : i ≤ s.supply) :
      ((Check.infer Γ e >>= Check.zonk).after s).subst.get? i = s.subst.get? i := by
    refine (follows.after env start le_rfl).subst.others i fun j pos eq => ?_
    have : 0 < j := pos
    have : j + s.supply = i := eq
    omega
  refine ⟨?_, fun i t found => ?_, others⟩
  · rw [Expr.infer_eq_outcome]
    exact follows.outcome_eq env start le_rfl
  · rw [others i (used.entries i t found).1.2, found]

/-- One unknown is handed out and solved by a unification that then fails. A lambda that uses it gets the next one. -/
def Request.usedOnce : List Request :=
  [.fresh, .unify (.fn (.unknown 1) .int) (.fn .bool .string),
    .infer (NameMap.insert {} "x" (.unknown 1)) (.lam ⟨"y", {}⟩ (.var ⟨"x", {}⟩) {})]

/-- A function applied to itself. -/
def Expr.toItself : Expr := .lam ⟨"f", {}⟩ (.app (.var ⟨"f", {}⟩) (.var ⟨"f", {}⟩) {}) {}

/-- A function applied to one. -/
def Expr.toOne : Expr := .lam ⟨"f", {}⟩ (.app (.var ⟨"f", {}⟩) (.int 1 {}) {}) {}

/-- After two unknowns the types of `\f -> f f` and `\f -> f 1` have the third and the fourth. -/
theorem Request.infer_shifted_usedOnce :
    (runAll {} usedOnce).supply = 2 ∧ (runAll {} usedOnce).subst.get? 1 = some .bool ∧
    (Check.infer {} Expr.toItself >>= Check.zonk).outcome (runAll {} usedOnce) =
      .error (.unification (.occurs 3 (.fn (.unknown 3) (.unknown 4))) {}) ∧
    (Check.infer {} Expr.toOne >>= Check.zonk).outcome (runAll {} usedOnce) =
      .ok (.fn (.fn .int (.unknown 4)) (.unknown 4)) ∧
    ((Check.infer {} Expr.toOne >>= Check.zonk).after (runAll {} usedOnce)).subst.get? 1 = some .bool := by
  have two : (runAll {} usedOnce).supply = 2 := by cbv
  have solved : (runAll {} usedOnce).subst.get? 1 = some .bool := by cbv
  have first : Ty.Issued 1 (.unknown 1) := Ty.issued_unknown Nat.one_pos le_rfl
  have basic {t : Ty} (none : t.unknowns = []) : t.Issued 1 := by
    intro id hid
    rw [← Ty.mem_unknowns, none] at hid
    cases hid
  have issued : AllIssued {} usedOnce := by
    refine ⟨trivial, ⟨first.fn (basic rfl), basic rfl⟩, ?_, trivial⟩
    rw [run_unify_state, Issued, supply_unify]
    refine TypeEnv.Issued.insert (fun x t found => ?_) first
    cases found
  have closed : TypeEnv.Closed {} := by
    intro x t found
    cases found
  have itself : Expr.infer {} Expr.toItself = .error (.unification (.occurs 1 (.fn (.unknown 1) (.unknown 2))) {}) := by
    cbv
  have one : Expr.infer {} Expr.toOne = .ok (.fn (.fn .int (.unknown 2)) (.unknown 2)) := by cbv
  obtain ⟨refused, -⟩ := infer_shifted issued rfl closed Expr.toItself
  obtain ⟨typed, kept, -⟩ := infer_shifted issued rfl closed Expr.toOne
  rw [itself, two] at refused
  rw [one, two] at typed
  exact ⟨two, solved, refused, typed, kept 1 .bool solved⟩

end Monolet
