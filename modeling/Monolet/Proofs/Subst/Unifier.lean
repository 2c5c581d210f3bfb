import Monolet.Proofs.Subst.Acyclic
import Monolet.Typing.Infer

/-!
# Unification finds most general unifiers

An assignment satisfies a substitution when it gives every unknown with an entry the type of the entry. Unification
is a run of steps (`Solving.Step`) that each take one equation away, take it apart or solve it. A step changes
neither the assignments that satisfy all entries and equations together (`Step.solutions`) nor the conditions
under which it is taken (`Step.ready`). A run that ends well has no equations left, so the entries stand for
everything that was asked; one that is refused has an equation at its front that no assignment makes true.
-/

namespace Monolet

open Relation

/-! ## Satisfying assignments -/

namespace Subst

variable {σ σ' : Subst} {θ : Nat → Ty} {id : Nat} {t ty : Ty}

/-- Every unknown with an entry has the type of its entry. -/
def Satisfies (θ : Nat → Ty) (σ : Subst) : Prop := ∀ i t, σ.get? i = some t → θ i = t.subst θ

theorem satisfies_empty (θ : Nat → Ty) : Satisfies θ empty := by
  intro i t ht
  rw [get?_empty] at ht
  cases ht

theorem Satisfies.follow (h : Satisfies θ σ) (n i : Nat) : (σ.follow n i).subst θ = θ i := by
  induction n generalizing i with
  | zero => rfl
  | succ n ih =>
    rw [Subst.follow]
    cases ht : σ.get? i with
    | none => rfl
    | some t =>
      rw [Ty.subst_subst, h i t ht]
      exact Ty.subst_congr fun j _ => ih j

/-- To a satisfying assignment, a type and what it resolves to are the same. -/
theorem Satisfies.apply (h : Satisfies θ σ) (t : Ty) : (σ.apply t).subst θ = t.subst θ := by
  rw [Subst.apply, Ty.subst_subst]
  exact Ty.subst_congr fun i _ => h.follow σ.size i

theorem subst_apply (σ : Subst) (θ : Nat → Ty) (t : Ty) :
    (σ.apply t).subst θ = t.subst fun i => (σ.apply (.unknown i)).subst θ := by
  rw [apply_eq_subst, Ty.subst_subst]

/-- Resolving and then assigning anything at all satisfies a substitution. -/
theorem Acyclic.satisfies (h : σ.Acyclic) (θ : Nat → Ty) :
    Satisfies (fun i => (σ.apply (.unknown i)).subst θ) σ := by
  intro i t ht
  dsimp only
  rw [apply_entry h ht, subst_apply]

/-- A substitution absorbs resolving by one that asks for no more than it does. -/
theorem Acyclic.apply_apply_of_satisfies (h : σ'.Acyclic) (weaker : ∀ θ, Satisfies θ σ' → Satisfies θ σ) (t : Ty) :
    σ'.apply (σ.apply t) = σ'.apply t := by
  have resolving := h.satisfies .unknown
  simp only [Ty.subst_unknown] at resolving
  exact (weaker _ resolving).apply t

/-- A substitution with more entries absorbs resolving by fewer. -/
theorem Acyclic.apply_apply (h : σ'.Acyclic) (keeps : ∀ i t, σ.get? i = some t → σ'.get? i = some t) (t : Ty) :
    σ'.apply (σ.apply t) = σ'.apply t :=
  h.apply_apply_of_satisfies (fun _ sat i u hu => sat i u (keeps i u hu)) t

theorem satisfies_set (free : σ.get? id = none) :
    Satisfies θ (σ.set id ty) ↔ Satisfies θ σ ∧ θ id = ty.subst θ := by
  constructor
  · intro h
    exact ⟨fun i t ht => h i t (get?_set_of_free free ht), h id ty (by simp)⟩
  · rintro ⟨old, new⟩ i t ht
    rw [get?_set] at ht
    split at ht
    · rename_i eq
      cases ht
      rw [eq, new]
    · exact old i t ht

end Subst

/-! ## Single equations -/

namespace Equation

variable {e : Equation} {θ : Nat → Ty} {id : Nat} {ty : Ty}

/-- Both sides become the same type. -/
def Holds (θ : Nat → Ty) (e : Equation) : Prop := e.1.subst θ = e.2.subst θ

theorem of_demand_nothing (h : e.demand = .nothing) : e.1 = e.2 := by
  fun_cases demand e <;> simp_all [demand]

theorem not_holds_of_clash (h : e.demand = .clash) : ¬ e.Holds θ := by
  obtain ⟨l, r⟩ := e
  cases l <;> cases r <;> simp_all [demand, Holds, Ty.subst]
  split at h <;> cases h

theorem ne_unknown_of_solution (h : e.demand = .solution id ty) : ty ≠ .unknown id := by
  rintro rfl
  rcases of_demand_solution h with rfl | rfl <;> simp [demand] at h

theorem holds_iff_of_both {first second : Equation} (h : e.demand = .both first second) :
    e.Holds θ ↔ first.Holds θ ∧ second.Holds θ := by
  obtain rfl := of_demand_both h
  simp [Holds, Ty.subst]

theorem holds_iff_of_solution (h : e.demand = .solution id ty) : e.Holds θ ↔ θ id = ty.subst θ := by
  rcases of_demand_solution h with rfl | rfl
  · rfl
  · exact eq_comm

/-- An equation whose unknown has the type of the solution holds exactly when it holds after assigning. -/
theorem holds_assign {d : Equation} (h : θ id = ty.subst θ) :
    Holds θ (d.1.assign id ty, d.2.assign id ty) ↔ d.Holds θ := by
  simp only [Holds, Ty.subst_assign h]

/-- Why unification stops at an equation. -/
inductive Refused : Equation → UnifyError → Prop where
  | clash {e : Equation} : e.demand = .clash → Refused e (.mismatch e.1 e.2)
  | occurs {e : Equation} {id : Nat} {ty : Ty} :
      e.demand = .solution id ty → ty.mentions id = true → Refused e (.occurs id ty)

/-- No assignment makes a refused equation true. -/
theorem Refused.not_holds {err : UnifyError} (h : Refused e err) : ¬ e.Holds θ := by
  cases h with
  | clash h => exact not_holds_of_clash h
  | occurs h within =>
    rw [holds_iff_of_solution h]
    exact Ty.ne_subst_of_mentions within (ne_unknown_of_solution h)

end Equation

/-! ## Steps -/

/-- A point of a unification: the entries found and the equations still to come. -/
structure Solving where
  subst : Subst
  todo : List Equation

namespace Solving

variable {p q : Solving} {θ : Nat → Ty}

/-- What unification does to its first equation. -/
inductive Step : Solving → Solving → Prop where
  | drop {σ : Subst} {e : Equation} {rest : List Equation} :
      e.demand = .nothing → Step ⟨σ, e :: rest⟩ ⟨σ, rest⟩
  | split {σ : Subst} {e first second : Equation} {rest : List Equation} :
      e.demand = .both first second → Step ⟨σ, e :: rest⟩ ⟨σ, first :: second :: rest⟩
  | solve {σ : Subst} {e : Equation} {rest : List Equation} {id : Nat} {ty : Ty} :
      e.demand = .solution id ty → ty.mentions id = false →
        Step ⟨σ, e :: rest⟩ ⟨σ.set id ty, Equation.assignAll rest id ty⟩

/-- The entries have no cycle, and the equations mention no unknown with an entry. -/
structure Ready (p : Solving) : Prop where
  acyclic : p.subst.Acyclic
  resolved : ∀ e ∈ p.todo, ∀ id, e.mentions id = true → p.subst.get? id = none

/-- The assignment satisfies all entries and makes all equations true. -/
def Solution (p : Solving) (θ : Nat → Ty) : Prop :=
  Subst.Satisfies θ p.subst ∧ ∀ e ∈ p.todo, e.Holds θ

/-- The unknown of a demanded solution has no entry, and neither do those of the type. -/
theorem Ready.solution {σ : Subst} {e : Equation} {rest : List Equation} {id : Nat} {ty : Ty}
    (h : Ready ⟨σ, e :: rest⟩) (demand : e.demand = .solution id ty) :
    σ.get? id = none ∧ σ.apply ty = ty := by
  have first := h.resolved e (List.mem_cons_self ..)
  obtain ⟨mentionsId, mentionsTy⟩ := Equation.mentions_of_demand_solution demand
  exact ⟨first id mentionsId, Subst.apply_eq_self fun i hi => first i (mentionsTy i hi)⟩

/-- A demanded solution is recorded, unless its unknown occurs in it. -/
theorem Ready.insert_eq {σ : Subst} {e : Equation} {rest : List Equation} {id : Nat} {ty : Ty}
    (h : Ready ⟨σ, e :: rest⟩) (demand : e.demand = .solution id ty) (absent : ty.mentions id = false) :
    σ.insert id ty = .ok (σ.set id ty) := by
  rw [Subst.insert, (h.solution demand).2, absent]
  rfl

theorem Step.ready (step : Step p q) (h : Ready p) : Ready q := by
  cases step with
  | drop => exact ⟨h.acyclic, fun e he => h.resolved e (List.mem_cons_of_mem _ he)⟩
  | split demand =>
    obtain rfl := Equation.of_demand_both demand
    refine ⟨h.acyclic, fun e he id hid => ?_⟩
    have first := h.resolved _ (List.mem_cons_self ..) id
    simp only [Equation.mentions, Ty.mentions, Bool.or_eq_true] at first hid
    rcases List.mem_cons.1 he with rfl | he
    · exact first (hid.imp .inl .inl)
    rcases List.mem_cons.1 he with rfl | he
    · exact first (hid.imp .inr .inr)
    · exact h.resolved e (List.mem_cons_of_mem _ he) id (by simpa [Equation.mentions] using hid)
  | @solve σ e rest id ty demand absent =>
    obtain ⟨free, same⟩ := h.solution demand
    refine ⟨h.acyclic.set free (by rw [same]; exact absent), fun e' he' k hk => ?_⟩
    obtain ⟨d, hd, rfl⟩ := List.mem_map.1 he'
    have old : ∀ n, d.mentions n = true → σ.get? n = none := h.resolved d (List.mem_cons_of_mem _ hd)
    have inTy : ∀ n, ty.mentions n = true → σ.get? n = none := fun n hn =>
      Subst.get?_of_mentions_apply h.acyclic (t := ty) (by rw [same]; exact hn)
    simp only [Equation.mentions, Bool.or_eq_true, Ty.mentions_assign] at hk old
    -- assigning took the unknown out of the equation, and the type does not bring it back
    have other : k ≠ id := by
      rintro rfl
      simp [absent] at hk
    rw [Subst.get?_set, if_neg other]
    rcases hk with (⟨-, hk⟩ | ⟨-, hk⟩) | (⟨-, hk⟩ | ⟨-, hk⟩)
    · exact inTy k hk
    · exact old k (.inl hk)
    · exact inTy k hk
    · exact old k (.inr hk)

/-- A step neither loses nor gains a solution. -/
theorem Step.solutions (step : Step p q) (h : Ready p) : p.Solution θ ↔ q.Solution θ := by
  cases step with
  | drop demand =>
    have trivial := Equation.of_demand_nothing demand
    simp [Solution, Equation.Holds, trivial]
  | split demand => simp [Solution, Equation.holds_iff_of_both demand, and_assoc]
  | @solve σ e rest id ty demand absent =>
    have front := Equation.holds_iff_of_solution (θ := θ) demand
    simp only [Solution, Subst.satisfies_set (h.solution demand).1, List.forall_mem_cons, front, and_assoc]
    refine and_congr_right fun _ => and_congr_right fun eq => ?_
    simp only [Equation.assignAll, List.forall_mem_map, Equation.holds_assign eq]

/-! ## Runs -/

/-- Unification starts with both types resolved. -/
def start (σ : Subst) (l r : Ty) : Solving := ⟨σ, [(σ.apply l, σ.apply r)]⟩

theorem ready_start {σ : Subst} {l r : Ty} (h : σ.Acyclic) : (start σ l r).Ready := by
  refine ⟨h, fun e he id hid => ?_⟩
  obtain rfl := List.mem_singleton.1 he
  rcases Bool.or_eq_true_iff.1 hid with hl | hr
  · exact Subst.get?_of_mentions_apply h hl
  · exact Subst.get?_of_mentions_apply h hr

/-- The resolved types ask for what the types as given ask for. -/
theorem solution_start {σ : Subst} {l r : Ty} :
    (start σ l r).Solution θ ↔ Subst.Satisfies θ σ ∧ l.subst θ = r.subst θ := by
  simp only [Solution, start, List.mem_singleton, forall_eq, Equation.Holds]
  refine and_congr_right fun sat => ?_
  rw [sat.apply, sat.apply]

theorem ready_of_run (run : ReflTransGen Step p q) (h : Ready p) : Ready q := by
  induction run with
  | refl => exact h
  | tail _ step ih => exact step.ready ih

/-- What a step from a ready point preserves is preserved by a run. -/
theorem invariant_of_run {I : Solving → Prop} (preserved : ∀ {p q}, Step p q → Ready p → I p → I q)
    (run : ReflTransGen Step p q) (h : Ready p) (holds : I p) : I q := by
  induction run with
  | refl => exact holds
  | tail run step ih => exact preserved step (ready_of_run run h) ih

theorem solutions_of_run (run : ReflTransGen Step p q) (h : Ready p) : p.Solution θ ↔ q.Solution θ :=
  invariant_of_run (I := fun q => p.Solution θ ↔ q.Solution θ)
    (fun step ready ih => ih.trans (step.solutions ready)) run h .rfl

/-- How solving ends: with no equation left, or with one at the front that is refused. -/
inductive Ends : Solving → EStateM.Result UnifyError Subst Unit → Prop where
  | solved {σ : Subst} : Ends ⟨σ, []⟩ (.ok () σ)
  | refused {σ : Subst} {e : Equation} {rest : List Equation} {err : UnifyError} :
      e.Refused err → Ends ⟨σ, e :: rest⟩ (.error err σ)

/-- Steps lead to an end with this result. -/
def Runs (p : Solving) (result : EStateM.Result UnifyError Subst Unit) : Prop :=
  ∃ q, ReflTransGen Step p q ∧ q.Ends result

theorem Ends.runs {result : EStateM.Result UnifyError Subst Unit} (h : p.Ends result) : p.Runs result :=
  ⟨p, .refl, h⟩

theorem Step.runs {result : EStateM.Result UnifyError Subst Unit} (step : Step p q) (h : q.Runs result) :
    p.Runs result := by
  obtain ⟨last, run, ends⟩ := h
  exact ⟨last, .head step run, ends⟩

end Solving

namespace Subst

variable {σ σ' : Subst} {θ : Nat → Ty} {l r : Ty}

/-- Solving is a run of steps to its end. The substitution refuses no solution on the way. -/
theorem solve_runs {eqs : List Equation} (h : Solving.Ready ⟨σ, eqs⟩) :
    Solving.Runs ⟨σ, eqs⟩ (σ.solve eqs) := by
  fun_induction solve σ eqs with
  | case1 σ => exact Solving.Ends.solved.runs
  | case2 σ e rest demand ih =>
    have step : Solving.Step ⟨σ, e :: rest⟩ ⟨σ, rest⟩ := .drop demand
    exact step.runs (ih (step.ready h))
  | case3 σ e rest first second demand ih =>
    have step : Solving.Step ⟨σ, e :: rest⟩ ⟨σ, first :: second :: rest⟩ := .split demand
    exact step.runs (ih (step.ready h))
  | case4 σ e rest id ty demand within => exact (Solving.Ends.refused (.occurs demand within)).runs
  | case5 σ e rest id ty demand absent σ' inserted ih =>
    have absent : ty.mentions id = false := by simpa using absent
    obtain rfl : σ.set id ty = σ' := by
      rw [h.insert_eq demand absent] at inserted
      exact Except.ok.inj inserted
    have step : Solving.Step ⟨σ, e :: rest⟩ ⟨σ.set id ty, Equation.assignAll rest id ty⟩ := .solve demand absent
    exact step.runs (ih (step.ready h))
  | case6 σ e rest id ty demand absent cycle inserted =>
    rw [h.insert_eq demand (by simpa using absent)] at inserted
    cases inserted
  | case7 σ e rest demand => exact (Solving.Ends.refused (.clash demand)).runs

theorem unify_runs (h : σ.Acyclic) (l r : Ty) : (Solving.start σ l r).Runs (unify l r σ) :=
  solve_runs (Solving.ready_start h)

theorem unify_ok (h : σ.Acyclic) (ok : unify l r σ = .ok () σ') :
    σ'.Acyclic ∧ ∀ θ, Satisfies θ σ' ↔ Satisfies θ σ ∧ l.subst θ = r.subst θ := by
  obtain ⟨q, run, ends⟩ := unify_runs h l r
  rw [ok] at ends
  cases ends
  refine ⟨(Solving.ready_of_run run (Solving.ready_start h)).acyclic, fun θ => ?_⟩
  rw [← Solving.solution_start, Solving.solutions_of_run run (Solving.ready_start h)]
  simp [Solving.Solution]

/-- Types that some satisfying assignment makes equal are unified, and the assignment goes on to satisfy. -/
theorem unify_succeeds (h : σ.Acyclic) (sat : Satisfies θ σ) (eq : l.subst θ = r.subst θ) :
    ∃ σ', unify l r σ = .ok () σ' ∧ Satisfies θ σ' := by
  obtain ⟨q, run, ends⟩ := unify_runs h l r
  have solution := (Solving.solutions_of_run run (Solving.ready_start h)).1 (Solving.solution_start.2 ⟨sat, eq⟩)
  generalize unify l r σ = result at ends ⊢
  cases ends with
  | solved => exact ⟨_, rfl, solution.1⟩
  | refused refused => exact absurd (solution.2 _ (List.mem_cons_self ..)) refused.not_holds

/-- An assignment that satisfies a substitution without cycles gives equal types to what resolves equally,
and resolving is such an assignment. -/
theorem apply_eq_apply (h : σ.Acyclic) (eq : ∀ θ, Satisfies θ σ → l.subst θ = r.subst θ) :
    σ.apply l = σ.apply r := by
  have resolving := eq _ (h.satisfies .unknown)
  simpa only [Ty.subst_unknown, ← apply_eq_subst] using resolving

end Subst

namespace Check

theorem unify_eq_ok {l r : Ty} {s s' : CheckState} {u : Unit} :
    unify l r s = .ok u s' ↔ ∃ σ, Subst.unify l r s.subst = .ok () σ ∧ { s with subst := σ } = s' := by
  rw [unify]
  cases Subst.unify l r s.subst <;> simp

/-- **Most general unifiers.** Unification succeeds exactly when some assignment satisfies the entries and makes
the types equal. Then the types resolve to one type, and the new entries are satisfied by just these
assignments. -/
theorem unify_mostGeneral (s : CheckState) (h : s.subst.Acyclic) (l r : Ty) :
    ((∃ s', unify l r s = .ok () s') ↔ ∃ θ, Subst.Satisfies θ s.subst ∧ l.subst θ = r.subst θ) ∧
      ∀ s', unify l r s = .ok () s' →
        s'.subst.apply l = s'.subst.apply r ∧
          ∀ θ, Subst.Satisfies θ s'.subst ↔ Subst.Satisfies θ s.subst ∧ l.subst θ = r.subst θ := by
  have most : ∀ s', unify l r s = .ok () s' → s'.subst.Acyclic ∧
      ∀ θ, Subst.Satisfies θ s'.subst ↔ Subst.Satisfies θ s.subst ∧ l.subst θ = r.subst θ := by
    intro s' ok
    obtain ⟨σ', unified, rfl⟩ := unify_eq_ok.1 ok
    exact Subst.unify_ok h unified
  refine ⟨⟨?_, ?_⟩, ?_⟩
  · rintro ⟨s', ok⟩
    obtain ⟨acyclic, solutions⟩ := most s' ok
    exact ⟨_, (solutions _).1 (acyclic.satisfies .unknown)⟩
  · rintro ⟨θ, sat, eq⟩
    obtain ⟨σ', unified, -⟩ := Subst.unify_succeeds h sat eq
    exact ⟨_, unify_eq_ok.2 ⟨σ', unified, rfl⟩⟩
  · intro s' ok
    obtain ⟨acyclic, solutions⟩ := most s' ok
    exact ⟨Subst.apply_eq_apply acyclic fun θ sat => ((solutions θ).1 sat).2, solutions⟩

end Check

/-- Entries in a chain: `u1 ↦ u2 -> u3` and `u2 ↦ u4`. -/
def Subst.chained : Subst := (Subst.empty.set 2 (.unknown 4)).set 1 (.fn (.unknown 2) (.unknown 3))

theorem Subst.acyclic_chained : Subst.chained.Acyclic := (Subst.acyclic_empty.set rfl rfl).set rfl rfl

/-- After the chain, `u1` is unified with `u5 -> Int`. -/
theorem Check.unify_mostGeneral_chained :
    Subst.chained.Acyclic ∧
      ∃ s', Check.unify (.unknown 1) (.fn (.unknown 5) .int) ⟨.chained, 5⟩ = .ok () s' ∧
        s'.subst.apply (.unknown 1) = s'.subst.apply (.fn (.unknown 5) .int) := by
  have acyclic : Subst.chained.Acyclic := (Subst.acyclic_empty.set rfl rfl).set rfl rfl
  have most := Check.unify_mostGeneral ⟨.chained, 5⟩ acyclic (.unknown 1) (.fn (.unknown 5) .int)
  have sat : Subst.Satisfies (fun i => if i = 1 then .fn .int .int else .int) .chained := by
    rw [Subst.chained, Subst.satisfies_set rfl, Subst.satisfies_set rfl]
    exact ⟨⟨Subst.satisfies_empty _, rfl⟩, rfl⟩
  obtain ⟨s', ok⟩ := most.1.2 ⟨_, sat, rfl⟩
  exact ⟨acyclic, s', ok, (most.2 s' ok).1⟩

end Monolet
