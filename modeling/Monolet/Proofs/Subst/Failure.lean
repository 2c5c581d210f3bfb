import Mathlib
import Monolet.Proofs.Subst.Unifier

/-!
# What a failed unification reports

The types of an error come from deep inside the two types that were to be unified, and from a time when parts of them
had been solved already. What ties them to the types as they resolve in the end is one invariant of the run
(`Solving.Located`): both sides of every equation to come stand at one position of the two resolved types. Taking an
equation apart goes one step further into both types. A solution is put into the equations to come and, by
`apply_set`, into everything that resolves, so both change alike and the position stays.
-/

namespace Monolet

/-! ## Positions -/

namespace Ty

variable {t u : Ty} {θ : Nat → Ty}

/-- The two components of a function type. -/
inductive Side where
  | arg
  | res
deriving DecidableEq

/-- A component of a type, if it is a function type. -/
def component : Ty → Side → Option Ty
  | fn arg _, .arg => some arg
  | fn _ res, .res => some res
  | _, _ => none

/-- The type at a position, which says from the outside in which components to take. -/
def at? : List Side → Ty → Option Ty
  | [], t => some t
  | side :: path, t => (t.component side).bind (at? path)

/-- The outermost constructors of types. -/
inductive Head where
  | int
  | bool
  | string
  | fn
  | unknown
deriving DecidableEq

/-- The outermost constructor of a type. -/
def head : Ty → Head
  | int => .int
  | bool => .bool
  | string => .string
  | fn .. => .fn
  | unknown _ => .unknown

theorem at?_append {path : List Side} (h : t.at? path = some u) (rest : List Side) :
    t.at? (path ++ rest) = u.at? rest := by
  induction path generalizing t with
  | nil =>
    cases h
    rfl
  | cons side path ih =>
    obtain ⟨c, component, inner⟩ := Option.bind_eq_some_iff.1 h
    rw [List.cons_append, at?, component]
    exact ih inner

theorem component_subst {side : Side} (h : t.component side = some u) :
    (t.subst θ).component side = some (u.subst θ) := by
  cases t <;> cases side <;> cases h <;> rfl

/-- What stands at a position of a type still does when the unknowns of both are replaced. -/
theorem at?_subst {path : List Side} (h : t.at? path = some u) : (t.subst θ).at? path = some (u.subst θ) := by
  induction path generalizing t with
  | nil =>
    cases h
    rfl
  | cons side path ih =>
    obtain ⟨c, component, inner⟩ := Option.bind_eq_some_iff.1 h
    rw [at?, component_subst component]
    exact ih inner

end Ty

/-! ## Errors -/

/-- What an error says is true of the two types as they resolve in the end. A mismatch names two resolved types with
different outermost constructors, neither an unknown, that stand at one position of the left and of the right type. A
failed occurs check names an unknown and a resolved function type with the unknown in it, and these two stand at one
position, one in each type. -/
def UnifyError.Truthful (σ : Subst) (l r : Ty) : UnifyError → Prop
  | mismatch left right =>
    (σ.apply left = left ∧ σ.apply right = right) ∧
      (left.head ≠ .unknown ∧ right.head ≠ .unknown ∧ left.head ≠ right.head) ∧
      ∃ path, (σ.apply l).at? path = some left ∧ (σ.apply r).at? path = some right
  | occurs id ty =>
    σ.apply ty = ty ∧ (ty.head = .fn ∧ ty.mentions id = true) ∧
      ∃ path, ((σ.apply l).at? path = some (.unknown id) ∧ (σ.apply r).at? path = some ty) ∨
        ((σ.apply l).at? path = some ty ∧ (σ.apply r).at? path = some (.unknown id))
  | cyclic _ => False

theorem Equation.head_of_clash {e : Equation} (h : e.demand = .clash) :
    e.1.head ≠ .unknown ∧ e.2.head ≠ .unknown ∧ e.1.head ≠ e.2.head := by
  obtain ⟨l, r⟩ := e
  cases l <;> cases r <;> simp_all [demand, Ty.head]
  split at h <;> cases h

/-- An unknown occurs in a type other than itself only if this is a function type. -/
theorem Ty.head_of_mentions {t : Ty} {id : Nat} (h : t.mentions id = true) (ne : t ≠ .unknown id) : t.head = .fn := by
  cases t with
  | fn => rfl
  | unknown n => exact absurd (by simpa [Ty.mentions] using h) ne
  | _ => cases h

/-! ## Runs -/

/-- A solution of a resolved unknown by a resolved type is put into whatever resolves. -/
theorem Subst.apply_set {σ : Subst} {id : Nat} {ty : Ty} (h : σ.Acyclic) (free : σ.get? id = none)
    (same : σ.apply ty = ty) (absent : ty.mentions id = false) (t : Ty) :
    (σ.set id ty).apply t = (σ.apply t).assign id ty := by
  have acyclic : (σ.set id ty).Acyclic := h.set free (by rw [same, absent])
  have unsolved : ∀ i, i ≠ id → σ.get? i = none → (σ.set id ty).get? i = none := by
    intro i ne free
    rw [get?_set, if_neg ne, free]
  rw [← acyclic.apply_apply (fun _ _ => get?_set_of_free free) t, apply_eq_subst, Ty.assign]
  refine Ty.subst_congr fun i hi => ?_
  by_cases eq : i = id
  · rw [if_pos eq, eq, apply_entry acyclic (t := ty) (by simp)]
    refine apply_eq_self fun k hk => unsolved k ?_ (get?_of_mentions_apply h (t := ty) (by rw [same, hk]))
    rintro rfl
    rw [absent] at hk
    cases hk
  · rw [if_neg eq, apply_free (unsolved i eq (get?_of_mentions_apply h hi))]

namespace Solving

variable {p q : Solving} {l r : Ty}

/-- Both sides of every equation to come stand at one position of the two resolved types. -/
def Located (l r : Ty) (p : Solving) : Prop :=
  ∀ e ∈ p.todo, ∃ path, (p.subst.apply l).at? path = some e.1 ∧ (p.subst.apply r).at? path = some e.2

theorem Step.located (step : Step p q) (ready : Ready p) (h : Located l r p) : Located l r q := by
  cases step with
  | drop => exact fun e he => h e (List.mem_cons_of_mem _ he)
  | split demand =>
    obtain rfl := Equation.of_demand_both demand
    obtain ⟨path, left, right⟩ := h _ (List.mem_cons_self ..)
    intro e he
    rcases List.mem_cons.1 he with rfl | he
    · exact ⟨path ++ [.arg], Ty.at?_append left _, Ty.at?_append right _⟩
    rcases List.mem_cons.1 he with rfl | he
    · exact ⟨path ++ [.res], Ty.at?_append left _, Ty.at?_append right _⟩
    · exact h e (List.mem_cons_of_mem _ he)
  | @solve σ e rest id ty demand absent =>
    obtain ⟨free, same⟩ := ready.solution demand
    have resolves := Subst.apply_set ready.acyclic free same absent
    intro e' he'
    obtain ⟨d, hd, rfl⟩ := List.mem_map.1 he'
    obtain ⟨path, left, right⟩ := h d (List.mem_cons_of_mem _ hd)
    refine ⟨path, ?_, ?_⟩
    · rw [resolves]
      exact Ty.at?_subst left
    · rw [resolves]
      exact Ty.at?_subst right

theorem located_start (σ : Subst) (l r : Ty) : Located l r (start σ l r) := by
  intro e he
  obtain rfl := List.mem_singleton.1 he
  exact ⟨[], rfl, rfl⟩

/-- The equation that stops a run is reported truthfully. -/
theorem Located.truthful {σ : Subst} {e : Equation} {rest : List Equation} {err : UnifyError}
    (h : Located l r ⟨σ, e :: rest⟩) (ready : Ready ⟨σ, e :: rest⟩) (refused : e.Refused err) :
    err.Truthful σ l r := by
  obtain ⟨path, left, right⟩ := h e (List.mem_cons_self ..)
  cases refused with
  | clash demand =>
    have unsolved := ready.resolved e (List.mem_cons_self ..)
    refine ⟨⟨?_, ?_⟩, Equation.head_of_clash demand, path, left, right⟩
    · exact Subst.apply_eq_self fun i hi => unsolved i (by simp [Equation.mentions, hi])
    · exact Subst.apply_eq_self fun i hi => unsolved i (by simp [Equation.mentions, hi])
  | occurs demand within =>
    have fn := Ty.head_of_mentions within (Equation.ne_unknown_of_solution demand)
    refine ⟨(ready.solution demand).2, ⟨fn, within⟩, path, ?_⟩
    rcases Equation.of_demand_solution demand with rfl | rfl
    · exact .inl ⟨left, right⟩
    · exact .inr ⟨left, right⟩

end Solving

theorem Subst.unify_truthful {σ σ' : Subst} {l r : Ty} {err : UnifyError} (h : σ.Acyclic)
    (failed : Subst.unify l r σ = .error err σ') : err.Truthful σ' l r := by
  obtain ⟨q, run, ends⟩ := unify_runs h l r
  have ready := Solving.ready_start (l := l) (r := r) h
  have located : q.Located l r :=
    Solving.invariant_of_run (fun step ready => step.located ready) run ready (Solving.located_start σ l r)
  rw [failed] at ends
  cases ends with
  | refused refused => exact located.truthful (Solving.ready_of_run run ready) refused

/-- **Errors tell the truth.** Whenever unification fails in a state without cycles, what its error says is true of the
two types as they resolve in the state that it leaves. -/
theorem Check.unify_error_truthful (s s' : CheckState) (acyclic : s.subst.Acyclic) (l r : Ty) (err : UnifyError)
    (failed : Check.unify l r s = .error err s') : err.Truthful s'.subst l r := by
  rw [unify] at failed
  cases result : Subst.unify l r s.subst with
  | ok u σ =>
    rw [result] at failed
    cases failed
  | error err' σ =>
    rw [result] at failed
    cases failed
    exact Subst.unify_truthful acyclic result

/-- The types `u4 -> u1` and `u6 -> u3 -> u2 -> Int`. -/
def Equation.infinite : Equation :=
  (.fn (.unknown 4) (.unknown 1), .fn (.unknown 6) (.fn (.unknown 3) (.fn (.unknown 2) .int)))

/-- The types `u5 -> u5` and `Bool -> String`. -/
def Equation.clashing : Equation := (.fn (.unknown 5) (.unknown 5), .fn .bool .string)

/-- After `u1 ↦ u2 -> u3` and `u2 ↦ u4`, the arguments of the first two types make all of `u2`, `u4` and `u6` into `u3`, and
then `u3` stands against `u2 -> Int`. The argument of the other two makes `u5` into `Bool`, which stands against
`String`. -/
theorem Check.unify_error_truthful_chained :
    Subst.chained.Acyclic ∧
      (∃ s', Check.unify Equation.infinite.1 Equation.infinite.2 ⟨.chained, 6⟩ =
          .error (.occurs 3 (.fn (.unknown 3) .int)) s' ∧
        (UnifyError.occurs 3 (.fn (.unknown 3) .int)).Truthful s'.subst Equation.infinite.1 Equation.infinite.2) ∧
      ∃ s', Check.unify Equation.clashing.1 Equation.clashing.2 ⟨.chained, 6⟩ = .error (.mismatch .bool .string) s' ∧
        (UnifyError.mismatch .bool .string).Truthful s'.subst Equation.clashing.1 Equation.clashing.2 := by
  have occurs : Check.unify Equation.infinite.1 Equation.infinite.2 ⟨.chained, 6⟩ =
      .error (.occurs 3 (.fn (.unknown 3) .int)) ⟨(Subst.chained.set 4 (.unknown 6)).set 6 (.unknown 3), 6⟩ := by cbv
  have clash : Check.unify Equation.clashing.1 Equation.clashing.2 ⟨.chained, 6⟩ =
      .error (.mismatch .bool .string) ⟨Subst.chained.set 5 .bool, 6⟩ := by cbv
  refine ⟨Subst.acyclic_chained, ⟨_, occurs, ?_⟩, _, clash, ?_⟩
  · exact Check.unify_error_truthful _ _ Subst.acyclic_chained _ _ _ occurs
  · exact Check.unify_error_truthful _ _ Subst.acyclic_chained _ _ _ clash

end Monolet
