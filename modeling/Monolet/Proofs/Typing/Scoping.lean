import Mathlib
import Monolet.Proofs.Typing.Derivation

/-!
# Inference and free variables

Inference asks its environment for names at the variables of the expression, below binders that hide some of them. What
it asks for are the free variables, no more and no less. In environments that bind these alike it does the same
(`Check.infer_congr`); the names that it does not find are among them (`Check.infer_unbound`); and it succeeds only when
it has found them all (`Infers.bound`). A binder makes its name known where `freeVars` takes it out, which for the value
of a `let` depends on whether the `let` is recursive.
-/

namespace Monolet

theorem Ascending.forall_mem_union {α : Type} [DecidableEq α] [LT α] [DecidableLT α] {l m : List α} {P : α → Prop} :
    (∀ a ∈ union l m, P a) ↔ (∀ a ∈ l, P a) ∧ ∀ a ∈ m, P a := by
  simp only [mem_union, or_imp, forall_and]

namespace NameMap

variable {α : Type} {m m' : NameMap α} {names : List String} {x y : String} {a : α}

/-- Below a binder, maps agree on some names if outside they agree on the others among them. -/
theorem agree_insert (h : ∀ y ∈ Ascending.remove x names, m.get? y = m'.get? y) (a : α) :
    ∀ y ∈ names, (m.insert x a).get? y = (m'.insert x a).get? y := by
  intro y hy
  rw [get?_insert, get?_insert]
  split
  · rfl
  · rename_i ne
    exact h y (Ascending.mem_remove.2 ⟨hy, ne⟩)

/-- Below a binder, some names are missing only if outside they are missing and not the one bound. -/
theorem missing_insert {P : String → Prop} (h : ∀ y ∈ Ascending.remove x names, m.get? y = none → P y) (a : α) :
    ∀ y ∈ names, (m.insert x a).get? y = none → P y := by
  intro y hy missing
  rw [get?_insert] at missing
  split at missing
  · cases missing
  · rename_i ne
    exact h y (Ascending.mem_remove.2 ⟨hy, ne⟩) missing

/-- What is bound below a binder and not by it is bound outside. -/
theorem bound_of_insert (h : ∀ y ∈ names, ((m.insert x a).get? y).isSome) :
    ∀ y ∈ Ascending.remove x names, (m.get? y).isSome := by
  intro y hy
  obtain ⟨mem, ne⟩ := Ascending.mem_remove.1 hy
  have bound := h y mem
  rwa [get?_insert, if_neg ne] at bound

end NameMap

/-- If the error is about a name that is not bound, then about one that `P` holds of. -/
def TypeError.AboutName (P : String → Prop) : TypeError → Prop
  | unknownVariable name _ => P name
  | unification .. => True

namespace Check

/-- Inference is the same in environments that bind the free variables alike. -/
theorem infer_congr {e : Expr} {Γ Γ' : TypeEnv} (same : ∀ x ∈ e.freeVars, Γ.get? x = Γ'.get? x) :
    infer Γ e = infer Γ' e := by
  induction e generalizing Γ Γ' with
  | int | bool | string => rfl
  | var x => rw [infer, infer, same x.name (List.mem_singleton.2 rfl)]
  | lam x body span ih =>
    refine bind_congr fun arg => ?_
    rw [ih (NameMap.agree_insert same arg)]
  | app f a span ihf iha =>
    obtain ⟨function, argument⟩ := Ascending.forall_mem_union.1 same
    rw [infer, infer, ihf function, iha argument]
  | letIn recursive x value body span ihv ihb =>
    obtain ⟨inValue, inBody⟩ := Ascending.forall_mem_union.1 same
    cases recursive with
    | false =>
      rw [infer, infer, ihv inValue]
      refine bind_congr fun raw => bind_congr fun ty => ?_
      rw [ihb (NameMap.agree_insert inBody ty)]
    | true =>
      refine bind_congr fun placeholder => ?_
      rw [ihv (NameMap.agree_insert inValue placeholder)]
      refine bind_congr fun raw => bind_congr fun _ => bind_congr fun ty => ?_
      rw [ihb (NameMap.agree_insert inBody ty)]
  | cond c t e span ihc iht ihe =>
    obtain ⟨condition, branches⟩ := Ascending.forall_mem_union.1 same
    obtain ⟨yes, no⟩ := Ascending.forall_mem_union.1 branches
    rw [infer, infer, ihc condition, iht yes, ihe no]

/-- The names that inference does not find are free variables that are not bound. -/
theorem infer_unbound (e : Expr) {Γ : TypeEnv} {P : String → Prop}
    (missing : ∀ x ∈ e.freeVars, Γ.get? x = none → P x) : (infer Γ e).FailsWith (TypeError.AboutName P) := by
  have unified (span : Span) (l r : Ty) : (unifyAt span l r).FailsWith (TypeError.AboutName P) :=
    failsWith_unifyAt l r fun _ => trivial
  induction e generalizing Γ with
  | int | bool | string => exact failsWith_pure _
  | var x =>
    rw [infer]
    split
    · exact failsWith_pure _
    · exact failsWith_throw (missing x.name (List.mem_singleton.2 rfl) ‹_›)
  | lam x body span ih =>
    refine failsWith_fresh.bind fun arg => ?_
    exact (ih (NameMap.missing_insert missing arg)).bind fun _ => failsWith_pure _
  | app f a span ihf iha =>
    obtain ⟨function, argument⟩ := Ascending.forall_mem_union.1 missing
    refine (ihf function).bind fun fnTy => (iha argument).bind fun arg => failsWith_fresh.bind fun res => ?_
    exact (unified span _ _).bind fun _ => failsWith_pure _
  | letIn recursive x value body span ihv ihb =>
    obtain ⟨inValue, inBody⟩ := Ascending.forall_mem_union.1 missing
    cases recursive with
    | false =>
      refine (ihv inValue).bind fun raw => (failsWith_zonk raw).bind fun ty => ?_
      exact ihb (NameMap.missing_insert inBody ty)
    | true =>
      refine failsWith_fresh.bind fun placeholder => ?_
      refine (ihv (NameMap.missing_insert inValue placeholder)).bind fun raw => (unified span _ _).bind fun _ => ?_
      exact (failsWith_zonk placeholder).bind fun ty => ihb (NameMap.missing_insert inBody ty)
  | cond c t e span ihc iht ihe =>
    obtain ⟨condition, branches⟩ := Ascending.forall_mem_union.1 missing
    obtain ⟨yes, no⟩ := Ascending.forall_mem_union.1 branches
    refine (ihc condition).bind fun cTy => (unified c.span _ _).bind fun _ => (iht yes).bind fun tTy => ?_
    exact (ihe no).bind fun eTy => (unified span _ _).bind fun _ => failsWith_zonk _

end Check

/-- Inference succeeds only if all free variables are bound. -/
theorem Infers.bound {Γ : TypeEnv} {e : Expr} {s s' : CheckState} {t : Ty} (h : Infers Γ e s t s') :
    ∀ x ∈ e.freeVars, (Γ.get? x).isSome := by
  induction h with
  | int | bool | string => exact List.forall_mem_nil _
  | var found =>
    intro x hx
    rw [List.mem_singleton.1 hx, found]
    rfl
  | lam _ ih => exact NameMap.bound_of_insert ih
  | app _ _ _ ihf iha => exact Ascending.forall_mem_union.2 ⟨ihf, iha⟩
  | letIn _ _ ihv ihb => exact Ascending.forall_mem_union.2 ⟨ihv, NameMap.bound_of_insert ihb⟩
  | letRec _ _ _ ihv ihb =>
    exact Ascending.forall_mem_union.2 ⟨NameMap.bound_of_insert ihv, NameMap.bound_of_insert ihb⟩
  | cond _ _ _ _ _ ihc iht ihe =>
    exact Ascending.forall_mem_union.2 ⟨ihc, Ascending.forall_mem_union.2 ⟨iht, ihe⟩⟩

/-- **Inference reads the free variables.** In environments that bind the free variables of an expression alike, inference
returns the same and leaves the same state, from any state. A name that it reports as not bound is a free variable that
the environment does not bind. It finds a type only if the environment binds all free variables. -/
theorem Check.infer_reads_freeVars (e : Expr) :
    (∀ Γ Γ' : TypeEnv, (∀ x ∈ e.freeVars, Γ.get? x = Γ'.get? x) → ∀ s, infer Γ e s = infer Γ' e s) ∧
      ∀ Γ : TypeEnv,
        (∀ s s' x span, infer Γ e s = .error (.unknownVariable x span) s' → x ∈ e.freeVars ∧ Γ.get? x = none) ∧
        (∀ x span, e.infer Γ = .error (.unknownVariable x span) → x ∈ e.freeVars ∧ Γ.get? x = none) ∧
        ∀ t, e.infer Γ = .ok t → ∀ x ∈ e.freeVars, (Γ.get? x).isSome := by
  have unbound {Γ : TypeEnv} {s s' : CheckState} {x : String} {span : Span}
      (failed : infer Γ e s = .error (.unknownVariable x span) s') : x ∈ e.freeVars ∧ Γ.get? x = none :=
    infer_unbound e (P := fun x => x ∈ e.freeVars ∧ Γ.get? x = none) (fun _ free missing => ⟨free, missing⟩) s _ s' failed
  refine ⟨fun Γ Γ' same s => ?_, fun Γ => ⟨fun s s' x span => unbound, fun x span failed => ?_, fun t ok => ?_⟩⟩
  · rw [infer_congr same]
  · obtain ⟨s, failed⟩ := Expr.infer_eq_error_iff.1 failed
    exact unbound failed
  · obtain ⟨raw, s, derived, -⟩ := Expr.infer_eq_ok_iff.1 ok
    exact derived.bound

/-- `\x -> let rec f = \y -> f (g x) in f` -/
def Expr.throughG : Expr :=
  .lam ⟨"x", {}⟩
    (.letIn true ⟨"f", {}⟩
      (.lam ⟨"y", {}⟩ (.app (.var ⟨"f", {}⟩) (.app (.var ⟨"g", {}⟩) (.var ⟨"x", {}⟩) {}) {}) {}) (.var ⟨"f", {}⟩) {}) {}

/-- Types for `g`, and for the names that `throughG` binds itself. -/
def TypeEnv.withG : TypeEnv := ⟨[("f", .bool), ("g", .fn .int .bool), ("x", .string)]⟩

/-- Of the names in `throughG` only `g` is free. Its type is all that inference takes from the environment, and without one
inference fails. -/
theorem Check.infer_reads_freeVars_throughG :
    Expr.throughG.freeVars = ["g"] ∧
      infer TypeEnv.withG Expr.throughG ⟨.chained, 4⟩ = infer ⟨[("g", .fn .int .bool)]⟩ Expr.throughG ⟨.chained, 4⟩ ∧
      Expr.throughG.infer TypeEnv.withG = .ok (.fn .int (.fn .bool (.unknown 5))) ∧ (TypeEnv.withG.get? "g").isSome ∧
      Expr.throughG.infer {} = .error (.unknownVariable "g" {}) ∧ NameMap.get? ({} : TypeEnv) "g" = none := by
  obtain ⟨same, reads⟩ := infer_reads_freeVars Expr.throughG
  have free : Expr.throughG.freeVars = ["g"] := by decide
  have found : Expr.throughG.infer TypeEnv.withG = .ok (.fn .int (.fn .bool (.unknown 5))) := by cbv
  have failed : Expr.throughG.infer {} = .error (.unknownVariable "g" {}) := by cbv
  have alike : ∀ x ∈ Expr.throughG.freeVars, TypeEnv.withG.get? x = NameMap.get? ⟨[("g", .fn .int .bool)]⟩ x := by
    rw [free]
    exact List.forall_mem_singleton.2 rfl
  have bound := (reads TypeEnv.withG).2.2 _ found "g" (by rw [free]; exact List.mem_singleton.2 rfl)
  exact ⟨free, same _ _ alike _, found, bound, failed, ((reads {}).2.1 "g" {} failed).2⟩

end Monolet
