import Mathlib.Data.Set.Function
import Monolet.Proofs.Subst.Unifier

/-!
# Unification does not depend on the numbers of unknowns

A renaming gives other numbers to the unknowns in use, different ones to different unknowns. It relates two substitutions
when the entries of the unknowns in use are renamed and stay in use (`Renaming.OfSubst`). The second substitution may
have other entries besides; they are never reached.

Everything unification looks at is the same up to the renaming: what a type resolves to (`OfSubst.apply`), what an
equation demands (`Equation.demand_rename`) and whether an unknown occurs in a type. So a step on one side is a step on
the other (`OfSolving.step`), and both runs end alike (`OfSubst.unify`).
-/

namespace Monolet

/-! ## Renamed types and equations -/

namespace Ty

variable {g : Nat → Nat} {used : Set Nat} {t u : Ty} {id : Nat}

/-- The type with other numbers for its unknowns. -/
def rename (g : Nat → Nat) (t : Ty) : Ty := t.subst fun i => .unknown (g i)

/-- All unknowns of the type are in the set. -/
def Within (used : Set Nat) (t : Ty) : Prop := ∀ i, t.mentions i = true → i ∈ used

@[simp] theorem rename_unknown (g : Nat → Nat) (i : Nat) : (unknown i).rename g = unknown (g i) := rfl

@[simp] theorem rename_fn (g : Nat → Nat) (t u : Ty) : (fn t u).rename g = fn (t.rename g) (u.rename g) := rfl

theorem within_unknown : (unknown id).Within used ↔ id ∈ used := by
  simp [Within, mentions]

theorem within_fn : (fn t u).Within used ↔ t.Within used ∧ u.Within used := by
  simp only [Within, mentions, Bool.or_eq_true, or_imp, forall_and]

theorem Within.subst {θ : Nat → Ty} (h : t.Within used) (hθ : ∀ i ∈ used, (θ i).Within used) :
    (t.subst θ).Within used := by
  intro k hk
  obtain ⟨i, hi, hk⟩ := mentions_subst.1 hk
  exact hθ i (h i hi) k hk

theorem Within.assign (h : t.Within used) (hu : u.Within used) : (t.assign id u).Within used := by
  refine h.subst fun i hi => ?_
  split
  · exact hu
  · exact within_unknown.2 hi

/-- An unknown occurs in a type exactly when it does under its new number. -/
theorem mentions_rename (inj : Set.InjOn g used) (h : t.Within used) (hid : id ∈ used) :
    (t.rename g).mentions (g id) = t.mentions id := by
  rw [Bool.eq_iff_iff, rename, mentions_subst]
  constructor
  · rintro ⟨i, hi, eq⟩
    have same : g i = g id := by simpa [mentions] using eq
    rwa [← inj (h i hi) hid same]
  · intro hi
    exact ⟨id, hi, by simp [mentions]⟩

theorem rename_assign (inj : Set.InjOn g used) (h : t.Within used) (hid : id ∈ used) :
    (t.assign id u).rename g = (t.rename g).assign (g id) (u.rename g) := by
  rw [rename, assign, subst_subst, rename, assign, subst_subst]
  refine subst_congr fun i hi => ?_
  by_cases eq : i = id
  · simp [eq, subst, rename]
  · have ne : g i ≠ g id := fun same => eq (inj (h i hi) hid same)
    simp [eq, ne, subst]

end Ty

namespace Equation

variable {g : Nat → Nat} {used : Set Nat} {e : Equation}

/-- The equation with other numbers for its unknowns. -/
def rename (g : Nat → Nat) (e : Equation) : Equation := (e.1.rename g, e.2.rename g)

/-- All unknowns of both sides are in the set. -/
def Within (used : Set Nat) (e : Equation) : Prop := e.1.Within used ∧ e.2.Within used

/-- The demand with other numbers for its unknowns. -/
def Demand.rename (g : Nat → Nat) : Demand → Demand
  | nothing => nothing
  | both first second => both (Equation.rename g first) (Equation.rename g second)
  | solution id ty => solution (g id) (ty.rename g)
  | clash => clash

/-- A renamed equation demands the same under the new numbers. -/
theorem demand_rename (inj : Set.InjOn g used) (h : e.Within used) :
    (Equation.rename g e).demand = e.demand.rename g := by
  obtain ⟨l, r⟩ := e
  cases l with
  | unknown m =>
    cases r with
    | unknown n =>
      have same : g m = g n ↔ m = n := inj.eq_iff (Ty.within_unknown.1 h.1) (Ty.within_unknown.1 h.2)
      by_cases eq : m = n <;> simp [rename, demand, Demand.rename, same, eq]
    | _ => rfl
  | _ => cases r <;> rfl

theorem Within.of_both {first second : Equation} (h : e.Within used) (demand : e.demand = .both first second) :
    first.Within used ∧ second.Within used := by
  obtain rfl := of_demand_both demand
  obtain ⟨left, right⟩ := h
  obtain ⟨left₁, left₂⟩ := Ty.within_fn.1 left
  obtain ⟨right₁, right₂⟩ := Ty.within_fn.1 right
  exact ⟨⟨left₁, right₁⟩, left₂, right₂⟩

theorem Within.of_solution {id : Nat} {ty : Ty} (h : e.Within used) (demand : e.demand = .solution id ty) :
    id ∈ used ∧ ty.Within used := by
  rcases of_demand_solution demand with rfl | rfl
  · exact ⟨Ty.within_unknown.1 h.1, h.2⟩
  · exact ⟨Ty.within_unknown.1 h.2, h.1⟩

end Equation

/-- The error with other numbers for its unknowns. -/
def UnifyError.rename (g : Nat → Nat) : UnifyError → UnifyError
  | mismatch left right => mismatch (left.rename g) (right.rename g)
  | occurs id ty => occurs (g id) (ty.rename g)
  | cyclic solution => cyclic ⟨g solution.id, solution.ty.rename g⟩

/-- All unknowns of the error are in the set. -/
def UnifyError.Within (used : Set Nat) : UnifyError → Prop
  | mismatch left right => left.Within used ∧ right.Within used
  | occurs id ty => id ∈ used ∧ ty.Within used
  | cyclic solution => solution.id ∈ used ∧ solution.ty.Within used

/-- The error of a refused equation has no other unknowns than the equation. -/
theorem Equation.Refused.within {e : Equation} {err : UnifyError} {used : Set Nat} (h : Refused e err)
    (within : e.Within used) : err.Within used := by
  cases h with
  | clash => exact within
  | occurs demand => exact within.of_solution demand

/-! ## Runs decide what solving returns -/

namespace Solving

theorem Step.solve_eq {p q : Solving} (step : Step p q) (ready : p.Ready) :
    p.subst.solve p.todo = q.subst.solve q.todo := by
  cases step with
  | drop demand =>
    rw [Subst.solve]
    split <;> simp_all
  | split demand =>
    rw [Subst.solve]
    split <;> simp_all
  | @solve σ e rest id ty demand absent =>
    have inserted := ready.insert_eq demand absent
    rw [Subst.solve]
    split <;> simp_all

theorem Ends.solve_eq {p : Solving} {result : EStateM.Result UnifyError Subst Unit} (h : p.Ends result) :
    p.subst.solve p.todo = result := by
  cases h with
  | solved => rw [Subst.solve]
  | refused refused =>
    cases refused <;>
    · rw [Subst.solve]
      split <;> simp_all

/-- Solving returns what a run ends with. -/
theorem Runs.solve_eq {p : Solving} {result : EStateM.Result UnifyError Subst Unit} (h : p.Runs result)
    (ready : p.Ready) : p.subst.solve p.todo = result := by
  obtain ⟨q, run, ends⟩ := h
  have same : p.subst.solve p.todo = q.subst.solve q.todo :=
    invariant_of_run (I := fun q => p.subst.solve p.todo = q.subst.solve q.todo)
      (fun step ready eq => eq.trans (step.solve_eq ready)) run ready rfl
  rw [same, ends.solve_eq]

end Solving

/-! ## Renamings -/

/-- New numbers for the unknowns in use, and the entries of unknowns that have none of these numbers. -/
structure Renaming where
  map : Nat → Nat
  used : Set Nat
  injOn : Set.InjOn map used
  others : Subst

namespace Renaming

variable {ρ : Renaming} {σ σ' : Subst} {l r t : Ty} {p p' q : Solving}

/-- The entries of the second substitution are those of the first, renamed, and the other ones. -/
structure OfSubst (ρ : Renaming) (σ σ' : Subst) : Prop where
  acyclic : σ.Acyclic
  acyclic' : σ'.Acyclic
  entries : ∀ i ∈ ρ.used, σ'.get? (ρ.map i) = (σ.get? i).map (Ty.rename ρ.map)
  within : ∀ i ∈ ρ.used, ∀ t, σ.get? i = some t → t.Within ρ.used
  others : ∀ j, (∀ i ∈ ρ.used, ρ.map i ≠ j) → σ'.get? j = ρ.others.get? j

theorem apply_rename {g : Nat → Nat} {t : Ty}
    (h : ∀ i, t.mentions i = true → σ'.apply (.unknown (g i)) = (σ.apply (.unknown i)).rename g) :
    σ'.apply (t.rename g) = (σ.apply t).rename g := by
  rw [Ty.rename, Subst.apply_eq_subst, Ty.subst_subst, Ty.rename, Subst.apply_eq_subst σ, Ty.subst_subst]
  exact Ty.subst_congr h

/-- An unknown in use resolves to the same type up to renaming, with unknowns in use. -/
theorem OfSubst.apply_unknown (h : ρ.OfSubst σ σ') {i : Nat} (hi : i ∈ ρ.used) :
    σ'.apply (.unknown (ρ.map i)) = (σ.apply (.unknown i)).rename ρ.map ∧
      (σ.apply (.unknown i)).Within ρ.used := by
  induction i using h.acyclic.wellFounded.induction with
  | _ i ih =>
    have entry := h.entries i hi
    cases ht : σ.get? i with
    | none =>
      rw [ht, Option.map_none] at entry
      rw [Subst.apply_free ht, Subst.apply_free entry]
      exact ⟨rfl, Ty.within_unknown.2 hi⟩
    | some t =>
      rw [ht, Option.map_some] at entry
      have within := h.within i hi t ht
      have inner (j : Nat) (hj : t.mentions j = true) := ih j ⟨t, ht, hj⟩ (within j hj)
      rw [Subst.apply_entry h.acyclic ht, Subst.apply_entry h.acyclic' entry]
      refine ⟨apply_rename fun j hj => (inner j hj).1, fun k hk => ?_⟩
      rw [Subst.apply_eq_subst] at hk
      obtain ⟨j, hj, hk⟩ := Ty.mentions_subst.1 hk
      exact (inner j hj).2 k hk

theorem OfSubst.apply (h : ρ.OfSubst σ σ') (ht : t.Within ρ.used) :
    σ'.apply (t.rename ρ.map) = (σ.apply t).rename ρ.map ∧ (σ.apply t).Within ρ.used := by
  refine ⟨apply_rename fun i hi => (h.apply_unknown (ht i hi)).1, ?_⟩
  rw [Subst.apply_eq_subst]
  exact ht.subst fun i hi => (h.apply_unknown hi).2

/-! ## Steps -/

/-- Two points of unifications with the same entries and equations up to renaming. -/
structure OfSolving (ρ : Renaming) (p p' : Solving) : Prop where
  ready : p.Ready
  ready' : p'.Ready
  subst : ρ.OfSubst p.subst p'.subst
  todo : p'.todo = p.todo.map (Equation.rename ρ.map)
  within : ∀ e ∈ p.todo, e.Within ρ.used

theorem OfSubst.start (h : ρ.OfSubst σ σ') (hl : l.Within ρ.used) (hr : r.Within ρ.used) :
    ρ.OfSolving (Solving.start σ l r) (Solving.start σ' (l.rename ρ.map) (r.rename ρ.map)) := by
  obtain ⟨left, withinLeft⟩ := h.apply hl
  obtain ⟨right, withinRight⟩ := h.apply hr
  refine ⟨Solving.ready_start h.acyclic, Solving.ready_start h.acyclic', h, ?_, ?_⟩
  · simp [Solving.start, left, right, Equation.rename]
  · simpa [Solving.start] using ⟨withinLeft, withinRight⟩

/-- A new entry on both sides. -/
theorem OfSubst.set {id : Nat} {ty : Ty} (h : ρ.OfSubst σ σ') (hid : id ∈ ρ.used) (hty : ty.Within ρ.used)
    (acyclic : (σ.set id ty).Acyclic) (acyclic' : (σ'.set (ρ.map id) (ty.rename ρ.map)).Acyclic) :
    ρ.OfSubst (σ.set id ty) (σ'.set (ρ.map id) (ty.rename ρ.map)) := by
  refine ⟨acyclic, acyclic', fun i hi => ?_, fun i hi t ht => ?_, fun j hj => ?_⟩
  · have same : ρ.map i = ρ.map id ↔ i = id := ρ.injOn.eq_iff hi hid
    by_cases eq : i = id
    · simp [eq]
    · simpa [same, eq] using h.entries i hi
  · rw [Subst.get?_set] at ht
    split at ht
    · cases ht
      exact hty
    · exact h.within i hi t ht
  · rw [Subst.get?_set, if_neg (hj id hid).symm, h.others j hj]

theorem OfSolving.step (h : ρ.OfSolving p p') (step : Solving.Step p q) :
    ∃ q', Solving.Step p' q' ∧ ρ.OfSolving q q' := by
  obtain ⟨σ', todo'⟩ := p'
  obtain rfl := h.todo
  have demanded {e : Equation} (within : e.Within ρ.used) := Equation.demand_rename ρ.injOn within
  cases step with
  | @drop σ e rest demand =>
    obtain ⟨first, others⟩ := List.forall_mem_cons.1 h.within
    have step' : Solving.Step ⟨σ', (e :: rest).map (Equation.rename ρ.map)⟩ ⟨σ', rest.map (Equation.rename ρ.map)⟩ :=
      .drop (by rw [demanded first, demand]; rfl)
    exact ⟨_, step', (Solving.Step.drop demand).ready h.ready, step'.ready h.ready', h.subst, rfl, others⟩
  | @split σ e one two rest demand =>
    obtain ⟨first, others⟩ := List.forall_mem_cons.1 h.within
    obtain ⟨within₁, within₂⟩ := first.of_both demand
    have step' : Solving.Step ⟨σ', (e :: rest).map (Equation.rename ρ.map)⟩
        ⟨σ', (one :: two :: rest).map (Equation.rename ρ.map)⟩ :=
      .split (by rw [demanded first, demand]; rfl)
    refine ⟨_, step', (Solving.Step.split demand).ready h.ready, step'.ready h.ready', h.subst, rfl, ?_⟩
    simp only [List.forall_mem_cons]
    exact ⟨within₁, within₂, others⟩
  | @solve σ e rest id ty demand absent =>
    obtain ⟨first, others⟩ := List.forall_mem_cons.1 h.within
    obtain ⟨hid, hty⟩ := first.of_solution demand
    have step : Solving.Step ⟨σ, e :: rest⟩ ⟨σ.set id ty, Equation.assignAll rest id ty⟩ := .solve demand absent
    have step' : Solving.Step ⟨σ', (e :: rest).map (Equation.rename ρ.map)⟩
        ⟨σ'.set (ρ.map id) (ty.rename ρ.map),
          Equation.assignAll (rest.map (Equation.rename ρ.map)) (ρ.map id) (ty.rename ρ.map)⟩ :=
      .solve (by rw [demanded first, demand]; rfl) (by rw [Ty.mentions_rename ρ.injOn hty hid, absent])
    have ready := step.ready h.ready
    have ready' := step'.ready h.ready'
    refine ⟨_, step', ready, ready', h.subst.set hid hty ready.acyclic ready'.acyclic, ?_, ?_⟩
    · simp only [Equation.assignAll, List.map_map]
      refine List.map_congr_left fun d hd => ?_
      have within := others d hd
      simp only [Function.comp, Equation.rename, Ty.rename_assign ρ.injOn within.1 hid,
        Ty.rename_assign ρ.injOn within.2 hid]
    · simp only [Equation.assignAll, List.forall_mem_map]
      exact fun d hd => ⟨(others d hd).1.assign hty, (others d hd).2.assign hty⟩

/-! ## Runs -/

/-- Two results of unification that are the same up to renaming. Errors have unknowns in use only. -/
inductive OfResult (ρ : Renaming) : EStateM.Result UnifyError Subst Unit → EStateM.Result UnifyError Subst Unit → Prop
  | ok {σ σ' : Subst} (h : ρ.OfSubst σ σ') : OfResult ρ (.ok () σ) (.ok () σ')
  | error {σ σ' : Subst} (err : UnifyError) (within : err.Within ρ.used) (h : ρ.OfSubst σ σ') :
      OfResult ρ (.error err σ) (.error (err.rename ρ.map) σ')

theorem OfSolving.ends (h : ρ.OfSolving p p') {result : EStateM.Result UnifyError Subst Unit} (ends : p.Ends result) :
    ∃ result', p'.Ends result' ∧ ρ.OfResult result result' := by
  obtain ⟨σ', todo'⟩ := p'
  obtain rfl := h.todo
  cases ends with
  | solved => exact ⟨_, .solved, .ok h.subst⟩
  | @refused σ e rest err refused =>
    have within := h.within e (List.mem_cons_self ..)
    have demanded := Equation.demand_rename ρ.injOn within
    refine ⟨_, .refused ?_, .error err (refused.within within) h.subst⟩
    cases refused with
    | clash demand => exact .clash (by rw [demanded, demand]; rfl)
    | occurs demand inside =>
      obtain ⟨hid, hty⟩ := within.of_solution demand
      exact .occurs (by rw [demanded, demand]; rfl) (by rw [Ty.mentions_rename ρ.injOn hty hid, inside])

theorem OfSolving.runs (h : ρ.OfSolving p p') {result : EStateM.Result UnifyError Subst Unit} (runs : p.Runs result) :
    ∃ result', p'.Runs result' ∧ ρ.OfResult result result' := by
  obtain ⟨q, run, ends⟩ := runs
  induction run using Relation.ReflTransGen.head_induction_on generalizing p' with
  | refl =>
    obtain ⟨result', ends', alike⟩ := h.ends ends
    exact ⟨result', ends'.runs, alike⟩
  | head step _ ih =>
    obtain ⟨q', step', h'⟩ := h.step step
    obtain ⟨result', runs', alike⟩ := ih h'
    exact ⟨result', step'.runs runs', alike⟩

/-- Unification of renamed types returns the same up to renaming. -/
theorem OfSubst.unify (h : ρ.OfSubst σ σ') (hl : l.Within ρ.used) (hr : r.Within ρ.used) :
    ρ.OfResult (Subst.unify l r σ) (Subst.unify (l.rename ρ.map) (r.rename ρ.map) σ') := by
  have start := h.start hl hr
  obtain ⟨result', runs', alike⟩ := start.runs (Subst.unify_runs h.acyclic l r)
  have eq : Subst.unify (l.rename ρ.map) (r.rename ρ.map) σ' = result' := runs'.solve_eq start.ready'
  rw [eq]
  exact alike

end Renaming

end Monolet
