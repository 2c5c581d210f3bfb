import Mathlib
import Monolet.Proofs.Typing.Derivation
import Monolet.Proofs.Typing.Rules

/-!
# Inference is sound

The invariant is stated for the end of a run and not for its moments: whatever assignment satisfies the entries that
are there at the end, it makes the inferred type a type of the expression (`Infers.hasType`). An assignment that
satisfies later entries satisfies earlier ones, so each part of an expression can be typed under the assignment
for the whole. To such an assignment it makes no difference that the type of a `let` is resolved early.
-/

namespace Monolet

variable {Γ : TypeEnv} {e : Expr} {t : Ty} {θ : Nat → Ty}

theorem Infers.hasType {s s' : CheckState} (h : Infers Γ e s t s') (acyclic : s.subst.Acyclic)
    (sat : Subst.Satisfies θ s'.subst) : HasType (Γ.subst θ) e (t.subst θ) := by
  induction h with
  | int => exact .int
  | bool => exact .bool
  | string => exact .string
  | var found => exact .var (by rw [TypeEnv.get?_subst, found]; rfl)
  | lam _ ih => exact .lam (ih acyclic sat)
  | app hf ha unified ihf iha =>
    have grows₁ := hf.grows acyclic
    have grows₂ := ha.grows grows₁.acyclic
    obtain ⟨sat₂, eq⟩ := ((Subst.unify_ok grows₂.acyclic unified).2 θ).1 sat
    have typedF := ihf acyclic (grows₂.satisfies sat₂)
    rw [eq] at typedF
    exact .app typedF (iha grows₁.acyclic sat₂)
  | letIn hv hb ihv ihb =>
    have grows₁ := hv.grows acyclic
    have sat₁ := (hb.grows grows₁.acyclic).satisfies sat
    have typedB := ihb grows₁.acyclic sat
    rw [TypeEnv.subst_insert, sat₁.apply] at typedB
    exact .letIn (ihv acyclic sat₁) typedB
  | letRec hv unified hb ihv ihb =>
    have grows₁ := hv.grows acyclic
    obtain ⟨acyclic₂, solutions⟩ := Subst.unify_ok grows₁.acyclic unified
    have sat₂ := (hb.grows acyclic₂).satisfies sat
    obtain ⟨sat₁, eq⟩ := (solutions θ).1 sat₂
    have typedV := ihv acyclic sat₁
    have typedB := ihb acyclic₂ sat
    rw [TypeEnv.subst_insert, eq] at typedV
    rw [TypeEnv.subst_insert, sat₂.apply, eq] at typedB
    exact .letRec typedV typedB
  | cond hc isBool ht he agree ihc iht ihe =>
    have grows₁ := hc.grows acyclic
    obtain ⟨acyclic₂, solutions⟩ := Subst.unify_ok grows₁.acyclic isBool
    have grows₂ := ht.grows acyclic₂
    have grows₃ := he.grows grows₂.acyclic
    obtain ⟨sat₃, same⟩ := ((Subst.unify_ok grows₃.acyclic agree).2 θ).1 sat
    have sat₂ := grows₃.satisfies sat₃
    obtain ⟨sat₁, eq⟩ := (solutions θ).1 (grows₂.satisfies sat₂)
    have typedC := ihc acyclic sat₁
    have typedT := iht acyclic₂ sat₂
    have typedE := ihe grows₂.acyclic sat₃
    rw [eq] at typedC
    rw [← same] at typedE
    rw [sat.apply]
    exact .cond typedC typedT typedE

/-- Resolving and then assigning types makes the inferred type a type of the expression. -/
theorem Infers.hasType_resolved {s : CheckState} (h : Infers Γ e {} t s) (θ : Nat → Ty) :
    HasType (Γ.subst fun i => (s.subst.apply (.unknown i)).subst θ) e ((s.subst.apply t).subst θ) := by
  have acyclic := (h.grows Subst.acyclic_empty).acyclic
  rw [Subst.subst_apply]
  exact h.hasType Subst.acyclic_empty (acyclic.satisfies θ)

theorem Expr.hasType_of_infer (h : e.infer Γ = .ok t) (closed : Γ.Closed) (θ : Nat → Ty) :
    HasType Γ e (t.subst θ) := by
  obtain ⟨raw, s, derived, rfl⟩ := Expr.infer_eq_ok_iff.1 h
  exact (derived.hasType_resolved θ).congr (closed.get?_subst _)

/-- **Soundness.** An inferred type is a type of the expression once the environment is resolved by the entries at
the end of inference. This stays true when types are put in place of the unknowns left in both. In an
environment without unknowns there is nothing to resolve. -/
theorem Expr.infer_sound (h : e.infer Γ = .ok t) :
    ∃ raw s, Check.infer Γ e {} = .ok raw s ∧ t = s.subst.apply raw ∧
      HasType (Γ.map s.subst.apply) e t ∧
      (∀ θ, HasType (TypeEnv.subst θ (Γ.map s.subst.apply)) e (t.subst θ)) ∧
      (Γ.Closed → ∀ θ, HasType Γ e (t.subst θ)) := by
  obtain ⟨raw, s, derived, rfl⟩ := Expr.infer_eq_ok_iff.1 h
  have typed (θ : Nat → Ty) : HasType (TypeEnv.subst θ (Γ.map s.subst.apply)) e ((s.subst.apply raw).subst θ) := by
    refine (derived.hasType_resolved θ).congr fun x => ?_
    rw [TypeEnv.get?_subst, TypeEnv.get?_subst, NameMap.get?_map, Option.map_map]
    exact congrArg (Option.map · (Γ.get? x)) (funext fun u => (Subst.subst_apply s.subst θ u).symm)
  refine ⟨raw, s, Check.infer_of_infers derived, rfl, ?_, typed, Expr.hasType_of_infer h⟩
  have resolved := typed .unknown
  rw [Ty.subst_unknown] at resolved
  refine resolved.congr fun x => ?_
  rw [TypeEnv.get?_subst]
  cases NameMap.get? (NameMap.map s.subst.apply Γ) x with
  | none => rfl
  | some u => rw [Option.map_some, Ty.subst_unknown]

/-- In `(\x -> x) y` with `y : u7`, the unknown of `y` is solved by that of the application. -/
theorem Expr.infer_sound_open :
    (Expr.app (.lam ⟨"x", {}⟩ (.var ⟨"x", {}⟩) {}) (.var ⟨"y", {}⟩) {}).infer
        (NameMap.insert {} "y" (.unknown 7)) = .ok (.unknown 2) ∧
      HasType (NameMap.insert {} "y" (.unknown 2))
        (.app (.lam ⟨"x", {}⟩ (.var ⟨"x", {}⟩) {}) (.var ⟨"y", {}⟩) {}) (.unknown 2) := by
  have ok : (Expr.app (.lam ⟨"x", {}⟩ (.var ⟨"x", {}⟩) {}) (.var ⟨"y", {}⟩) {}).infer
      (NameMap.insert {} "y" (.unknown 7)) = .ok (.unknown 2) := by cbv
  obtain ⟨raw, s, run, -, typed, -⟩ := Expr.infer_sound ok
  have found : Check.infer (NameMap.insert {} "y" (.unknown 7))
      (.app (.lam ⟨"x", {}⟩ (.var ⟨"x", {}⟩) {}) (.var ⟨"y", {}⟩) {}) {} =
        .ok (.unknown 2) ⟨⟨[(1, .unknown 7), (7, .unknown 2)], by simp⟩, 2⟩ := by cbv
  rw [found] at run
  cases run
  exact ⟨ok, typed⟩

end Monolet
