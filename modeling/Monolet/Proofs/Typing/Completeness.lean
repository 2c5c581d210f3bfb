import Mathlib.Logic.Function.Basic
import Monolet.Proofs.Typing.Issued
import Monolet.Proofs.Typing.Soundness

/-!
# Inference finds principal types

A typing is followed by inference step for step. Along the way an assignment is kept that tells what the typing has in
place of every unknown handed out so far; it satisfies the entries, so no unification can fail. Handing out an
unknown extends it by the type that the typing chose there, which disturbs nothing because the unknown is new. At the
end the assignment turns the inferred type into the type of the typing.
-/

namespace Monolet

variable {n : Nat} {θ θ' θ'' : Nat → Ty}

/-! ## Assignments for the unknowns handed out -/

/-- The assignments agree on the first `n` unknowns. -/
def AgreeUpTo (n : Nat) (θ θ' : Nat → Ty) : Prop := ∀ i ≤ n, θ i = θ' i

theorem AgreeUpTo.trans {m : Nat} (h : AgreeUpTo n θ θ') (le : n ≤ m) (h' : AgreeUpTo m θ' θ'') :
    AgreeUpTo n θ θ'' := by
  intro i hi
  rw [h i hi, h' i (by omega)]

theorem Subst.Issued.satisfies_congr {σ : Subst} (h : σ.Issued n) (agree : AgreeUpTo n θ θ')
    (sat : Satisfies θ σ) : Satisfies θ' σ := by
  intro i t ht
  obtain ⟨⟨-, le⟩, issued⟩ := h i t ht
  rw [← agree i le, sat i t ht, issued.subst_congr agree]

/-- An unknown that is about to be handed out can be given any type. -/
theorem CheckState.Issued.extend {s : CheckState} (h : s.Issued) (sat : Subst.Satisfies θ s.subst) (t : Ty) :
    ∃ θ', AgreeUpTo s.supply θ θ' ∧ (Ty.unknown (s.supply + 1)).subst θ' = t ∧
      Subst.Satisfies θ' s.subst := by
  have agree : AgreeUpTo s.supply θ (Function.update θ (s.supply + 1) t) := by
    intro i hi
    rw [Function.update_of_ne (by omega)]
  exact ⟨_, agree, Function.update_self .., h.entries.satisfies_congr agree sat⟩

/-- An environment looks up what another one does under an assignment. -/
def TypeEnv.Instance (θ : Nat → Ty) (Γ Δ : TypeEnv) : Prop := ∀ x, Δ.get? x = (Γ.get? x).map (·.subst θ)

namespace TypeEnv.Instance

variable {Γ Δ : TypeEnv}

theorem congr (h : Instance θ Γ Δ) (issued : Γ.Issued n) (agree : AgreeUpTo n θ θ') : Instance θ' Γ Δ := by
  intro x
  rw [h x]
  cases found : Γ.get? x with
  | none => rfl
  | some t => rw [Option.map_some, Option.map_some, (issued x t found).subst_congr agree]

theorem insert {x : String} {t u : Ty} (h : Instance θ Γ Δ) (eq : t.subst θ = u) :
    Instance θ (Γ.insert x t) (Δ.insert x u) := by
  intro y
  rw [NameMap.get?_insert, NameMap.get?_insert]
  split
  · rw [Option.map_some, eq]
  · exact h y

end TypeEnv.Instance

/-! ## Following a typing -/

/-- Inference follows every typing of an instance of its environment. -/
theorem HasType.infers {Γ Δ : TypeEnv} {e : Expr} {T : Ty} {s : CheckState} (h : HasType Δ e T)
    (inst : TypeEnv.Instance θ Γ Δ) (hs : s.Issued) (hΓ : Γ.Issued s.supply)
    (sat : Subst.Satisfies θ s.subst) :
    ∃ t s' θ', Infers Γ e s t s' ∧ AgreeUpTo s.supply θ θ' ∧ Subst.Satisfies θ' s'.subst ∧
      t.subst θ' = T := by
  induction h generalizing Γ θ s with
  | int => exact ⟨_, s, θ, .int, fun _ _ => rfl, sat, rfl⟩
  | bool => exact ⟨_, s, θ, .bool, fun _ _ => rfl, sat, rfl⟩
  | string => exact ⟨_, s, θ, .string, fun _ _ => rfl, sat, rfl⟩
  | @var Δ x T found =>
    rw [inst] at found
    obtain ⟨t, ht, eq⟩ := Option.map_eq_some_iff.1 found
    exact ⟨t, s, θ, .var ht, fun _ _ => rfl, sat, eq⟩
  | @lam Δ x body span arg res _ ih =>
    obtain ⟨θ₁, agree₁, chosen, sat₁⟩ := hs.extend sat arg
    have inst₁ := (inst.congr hΓ agree₁).insert (x := x.name) chosen
    have hΓ₁ := (hΓ.mono (Nat.le_succ _)).insert (x := x.name) (CheckState.Issued.newest s)
    obtain ⟨t, s', θ₂, hb, agree₂, sat₂, eq⟩ := ih inst₁ hs.next hΓ₁ sat₁
    refine ⟨_, s', θ₂, .lam hb, agree₁.trans (Nat.le_succ _) agree₂, sat₂, ?_⟩
    rw [Ty.subst, ← (CheckState.Issued.newest s).subst_congr agree₂, chosen, eq]
  | @app Δ f a span arg res _ _ ihf iha =>
    obtain ⟨fnTy, s₁, θ₁, hf, agree₁, sat₁, eqF⟩ := ihf inst hs hΓ sat
    obtain ⟨hs₁, hfn⟩ := hf.issued hs hΓ
    have le₁ := (hf.grows hs.acyclic).supply
    obtain ⟨argTy, s₂, θ₂, ha, agree₂, sat₂, eqA⟩ := iha (inst.congr hΓ agree₁) hs₁ (hΓ.mono le₁) sat₁
    obtain ⟨hs₂, harg⟩ := ha.issued hs₁ (hΓ.mono le₁)
    have le₂ := (ha.grows hs₁.acyclic).supply
    obtain ⟨θ₃, agree₃, chosen, sat₃⟩ := hs₂.extend sat₂ res
    have eq : fnTy.subst θ₃ = (Ty.fn argTy (.unknown (s₂.supply + 1))).subst θ₃ := by
      rw [Ty.subst, chosen, ← hfn.subst_congr (agree₂.trans le₂ agree₃), eqF,
        ← harg.subst_congr agree₃, eqA]
    obtain ⟨σ, unified, satσ⟩ := Subst.unify_succeeds hs₂.acyclic sat₃ eq
    exact ⟨_, _, θ₃, .app hf ha unified, agree₁.trans le₁ (agree₂.trans le₂ agree₃), satσ, chosen⟩
  | @letIn Δ x value body span T res _ _ ihv ihb =>
    obtain ⟨ty, s₁, θ₁, hv, agree₁, sat₁, eqV⟩ := ihv inst hs hΓ sat
    obtain ⟨hs₁, hty⟩ := hv.issued hs hΓ
    have le₁ := (hv.grows hs.acyclic).supply
    have inst₁ := (inst.congr hΓ agree₁).insert (x := x.name) ((sat₁.apply ty).trans eqV)
    have hΓ₁ := (hΓ.mono le₁).insert (x := x.name) (hs₁.entries.apply hty)
    obtain ⟨t, s', θ₂, hb, agree₂, sat₂, eqB⟩ := ihb inst₁ hs₁ hΓ₁ sat₁
    exact ⟨t, s', θ₂, .letIn hv hb, agree₁.trans le₁ agree₂, sat₂, eqB⟩
  | @letRec Δ x value body span T res _ _ ihv ihb =>
    obtain ⟨θ₁, agree₁, chosen, sat₁⟩ := hs.extend sat T
    have inst₁ := (inst.congr hΓ agree₁).insert (x := x.name) chosen
    have newest := CheckState.Issued.newest s
    have hΓ₁ := (hΓ.mono (Nat.le_succ _)).insert (x := x.name) newest
    obtain ⟨ty, s₁, θ₂, hv, agree₂, sat₂, eqV⟩ := ihv inst₁ hs.next hΓ₁ sat₁
    obtain ⟨hs₁, hty⟩ := hv.issued hs.next hΓ₁
    have le₁ : s.supply + 1 ≤ s₁.supply := (hv.grows hs.next.acyclic).supply
    have agree := agree₁.trans (Nat.le_succ _) agree₂
    have placeholder : (Ty.unknown (s.supply + 1)).subst θ₂ = T := by
      rw [← newest.subst_congr agree₂, chosen]
    obtain ⟨σ, unified, satσ⟩ := Subst.unify_succeeds hs₁.acyclic sat₂ (placeholder.trans eqV.symm)
    have hs₂ := hs₁.unify (newest.mono le₁) hty unified
    have inst₂ := (inst.congr hΓ agree).insert (x := x.name) ((satσ.apply _).trans placeholder)
    have hΓ₂ := (hΓ.mono (Nat.le_of_succ_le le₁)).insert (x := x.name) (hs₂.entries.apply (newest.mono le₁))
    obtain ⟨t, s', θ₃, hb, agree₃, sat₃, eqB⟩ := ihb inst₂ hs₂ hΓ₂ satσ
    exact ⟨t, s', θ₃, .letRec hv unified hb, agree.trans (Nat.le_of_succ_le le₁) agree₃, sat₃, eqB⟩
  | @cond Δ c t e span T _ _ _ ihc iht ihe =>
    obtain ⟨cTy, s₁, θ₁, hc, agree₁, sat₁, eqC⟩ := ihc inst hs hΓ sat
    obtain ⟨hs₁, hcTy⟩ := hc.issued hs hΓ
    have le₁ := (hc.grows hs.acyclic).supply
    obtain ⟨σ, isBool, satσ⟩ := Subst.unify_succeeds (r := .bool) hs₁.acyclic sat₁ eqC
    have hs₁' := hs₁.unify hcTy Ty.issued_bool isBool
    obtain ⟨tTy, s₂, θ₂, ht, agree₂, sat₂, eqT⟩ := iht (inst.congr hΓ agree₁) hs₁' (hΓ.mono le₁) satσ
    obtain ⟨hs₂, htTy⟩ := ht.issued hs₁' (hΓ.mono le₁)
    have le₂ : s₁.supply ≤ s₂.supply := (ht.grows hs₁'.acyclic).supply
    have agree := agree₁.trans le₁ agree₂
    have hΓ₂ := hΓ.mono (Nat.le_trans le₁ le₂)
    obtain ⟨eTy, s₃, θ₃, he, agree₃, sat₃, eqE⟩ := ihe (inst.congr hΓ agree) hs₂ hΓ₂ sat₂
    have hs₃ := (he.issued hs₂ hΓ₂).1
    have branch : tTy.subst θ₃ = T := by rw [← htTy.subst_congr agree₃, eqT]
    obtain ⟨σ', unified, satσ'⟩ := Subst.unify_succeeds hs₃.acyclic sat₃ (branch.trans eqE.symm)
    refine ⟨_, _, θ₃, .cond hc isBool ht he unified, ?_, satσ', (satσ'.apply tTy).trans branch⟩
    exact agree.trans (Nat.le_trans le₁ le₂) agree₃

theorem TypeEnv.Closed.issued {Γ : TypeEnv} (h : Γ.Closed) : Γ.Issued n := by
  intro x t ht id hid
  rw [h x t ht id] at hid
  cases hid

/-- An expression with a type has an inferred type, and the type is an instance of the inferred one. -/
theorem HasType.infer {Γ : TypeEnv} {e : Expr} {T : Ty} (h : HasType Γ e T) (closed : Γ.Closed) :
    ∃ t θ, e.infer Γ = .ok t ∧ t.subst θ = T := by
  have inst : TypeEnv.Instance .unknown Γ Γ := by
    intro x
    rw [← TypeEnv.get?_subst, closed.get?_subst]
  obtain ⟨raw, s, θ, derived, -, sat, eq⟩ :=
    h.infers inst CheckState.issued_empty closed.issued (Subst.satisfies_empty _)
  exact ⟨s.subst.apply raw, θ, Expr.infer_eq_ok_iff.2 ⟨raw, s, derived, rfl⟩, (sat.apply raw).trans eq⟩

/-- **Principal types.** In an environment without unknowns, inference succeeds on every expression that has a type,
and the types of the expression are exactly the instances of the one inferred. -/
theorem Expr.infer_principal {Γ : TypeEnv} (closed : Γ.Closed) {e : Expr} {T₀ : Ty} (typed : HasType Γ e T₀) :
    ∃ t, e.infer Γ = .ok t ∧ ∀ T, HasType Γ e T ↔ ∃ θ, T = t.subst θ := by
  obtain ⟨t, -, ok, -⟩ := typed.infer closed
  refine ⟨t, ok, fun T => ⟨fun h => ?_, ?_⟩⟩
  · obtain ⟨t', θ, ok', eq⟩ := h.infer closed
    rw [ok] at ok'
    cases ok'
    exact ⟨θ, eq.symm⟩
  · rintro ⟨θ, rfl⟩
    exact Expr.hasType_of_infer ok closed θ

/-- `\f -> \x -> f (succ x)` -/
def Expr.afterSucc : Expr :=
  .lam ⟨"f", {}⟩ (.lam ⟨"x", {}⟩
    (.app (.var ⟨"f", {}⟩) (.app (.var ⟨"succ", {}⟩) (.var ⟨"x", {}⟩) {}) {}) {}) {}

theorem Expr.infer_principal_afterSucc :
    TypeEnv.Closed (NameMap.insert {} "succ" (.fn .int .int)) ∧
      HasType (NameMap.insert {} "succ" (.fn .int .int)) afterSucc (.fn (.fn .int .bool) (.fn .int .bool)) ∧
        ∃ t, afterSucc.infer (NameMap.insert {} "succ" (.fn .int .int)) = .ok t ∧
          ∀ T, HasType (NameMap.insert {} "succ" (.fn .int .int)) afterSucc T ↔ ∃ θ, T = t.subst θ := by
  have closed : TypeEnv.Closed (NameMap.insert {} "succ" (.fn .int .int)) := by
    intro x t ht id
    rw [NameMap.get?_insert] at ht
    split at ht
    · cases ht
      rfl
    · cases ht
  have typed : HasType (NameMap.insert {} "succ" (.fn .int .int)) afterSucc
      (.fn (.fn .int .bool) (.fn .int .bool)) :=
    .lam (.lam (.app (.var rfl) (.app (.var rfl) (.var rfl))))
  exact ⟨closed, typed, Expr.infer_principal closed typed⟩

end Monolet
