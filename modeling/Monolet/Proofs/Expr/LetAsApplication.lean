import Mathlib
import Monolet.Proofs.Eval.Natural
import Monolet.Proofs.Typing.Completeness
import Monolet.Proofs.Typing.EquationOrder

/-!
# A let is an application of a lambda

`let x = v in b` and `(\x -> b) v` are interchangeable. They evaluate alike step by step, and they have the same types
by the rules. Inference goes different ways for them: it hands out two more unknowns for the application, and checks `b`
before `v` there. That it finds the same type nevertheless has nothing to do with these two expressions. Inferred types
are principal, so expressions with the same types have inferred types that are instances of one another
(`Expr.exists_subst_of_infer`), and such types differ in the numbers of their unknowns only (`Ty.exists_perm_of_instances`).
-/

namespace Monolet

/-! ## Types that are instances of one another -/

namespace Ty

variable {t u : Ty} {θ θ' : Nat → Ty} {i : Nat}

/-- What an assignment does to a type decides what it assigns to the unknowns of the type. -/
theorem eq_of_subst_eq (h : t.subst θ = t.subst θ') (hi : t.mentions i = true) : θ i = θ' i := by
  induction t with
  | unknown j =>
    obtain rfl : j = i := by simpa [mentions] using hi
    exact h
  | fn a r iha ihr =>
    obtain ⟨first, second⟩ := fn.inj h
    rcases Bool.or_eq_true_iff.1 hi with inFirst | inSecond
    · exact iha first inFirst
    · exact ihr second inSecond
  | _ => cases hi

/-- Going to an instance and back gives each unknown of a type another one in between. -/
theorem exists_unknown_of_instances (forth : t.subst θ = u) (back : u.subst θ' = t) (hi : t.mentions i = true) :
    ∃ j, θ i = unknown j ∧ θ' j = unknown i ∧ u.mentions j = true := by
  have round : t.subst (fun k => (θ k).subst θ') = t.subst unknown := by
    rw [← subst_subst, forth, back, subst_unknown]
  have returns : (θ i).subst θ' = unknown i := eq_of_subst_eq round hi
  cases found : θ i with
  | unknown j =>
    rw [found] at returns
    refine ⟨j, rfl, returns, ?_⟩
    rw [← forth, mentions_subst]
    exact ⟨i, hi, by simp [found, mentions]⟩
  | _ =>
    -- nothing but an unknown becomes an unknown
    rw [found] at returns
    cases returns

/-- Types that are instances of one another are the same up to a permutation of the unknowns. -/
theorem exists_perm_of_instances (forth : t.subst θ = u) (back : u.subst θ' = t) :
    ∃ π : Equiv.Perm Nat, t.rename π = u := by
  have counterparts (i : Nat) (hi : t.mentions i = true) := exists_unknown_of_instances forth back hi
  choose! f forward backward inside using counterparts
  have inj : Set.InjOn f {i | t.mentions i = true} := by
    intro i hi j hj eq
    have same : θ' (f i) = θ' (f j) := congrArg θ' eq
    rw [backward i hi, backward j hj] at same
    exact unknown.inj same
  have listed {i : Nat} (h : t.mentions i = true ∨ u.mentions i = true) : i ∈ (t.unknowns ++ u.unknowns).toFinset := by
    simpa [mem_unknowns] using h
  obtain ⟨π, extending, -⟩ := exists_perm_extending (t.unknowns ++ u.unknowns).toFinset inj
    fun i hi _ => listed (.inr (inside i hi))
  refine ⟨π, ?_⟩
  rw [← forth, rename]
  refine subst_congr fun i hi => ?_
  rw [extending i hi (listed (.inl hi)), forward i hi]

end Ty

namespace Expr

/-! ## Expressions with the same types -/

variable {Γ : TypeEnv} {e e' : Expr} {t t' : Ty}

/-- Inference succeeds on the expressions that have a type. -/
theorem exists_infer_iff (closed : Γ.Closed) : (∃ t, e.infer Γ = .ok t) ↔ ∃ T, HasType Γ e T := by
  constructor
  · rintro ⟨t, ok⟩
    exact ⟨t.subst .unknown, hasType_of_infer ok closed .unknown⟩
  · rintro ⟨T, typed⟩
    obtain ⟨t, -, ok, -⟩ := typed.infer closed
    exact ⟨t, ok⟩

/-- The type inferred for one expression is an instance of the one inferred for another that has all its types. -/
theorem exists_subst_of_infer (closed : Γ.Closed) (types : ∀ T, HasType Γ e T → HasType Γ e' T)
    (ok : e.infer Γ = .ok t) (ok' : e'.infer Γ = .ok t') : ∃ θ, t'.subst θ = t := by
  have typed : HasType Γ e t := by simpa [Ty.subst_unknown] using hasType_of_infer ok closed .unknown
  obtain ⟨u, θ, found, eq⟩ := (types t typed).infer closed
  rw [ok'] at found
  cases found
  exact ⟨θ, eq⟩

/-- Inference finds the same type, up to the numbers of unknowns, for expressions with the same types. -/
theorem infer_perm (closed : Γ.Closed) (same : ∀ T, HasType Γ e T ↔ HasType Γ e' T) (ok : e.infer Γ = .ok t)
    (ok' : e'.infer Γ = .ok t') : ∃ π : Equiv.Perm Nat, t.rename π = t' := by
  obtain ⟨θ, back⟩ := exists_subst_of_infer closed (fun T => (same T).1) ok ok'
  obtain ⟨θ', forth⟩ := exists_subst_of_infer closed (fun T => (same T).2) ok' ok
  exact Ty.exists_perm_of_instances forth back

/-! ## Let and application -/

variable {x : Ident} {value body : Expr} {s s₁ s₂ : Span}

/-- The two rules for the application ask for what the rule for `let` asks for. -/
theorem hasType_let_iff {T : Ty} :
    HasType Γ (.letIn false x value body s) T ↔ HasType Γ (.app (.lam x body s₁) value s₂) T := by
  constructor
  · intro h
    cases h with
    | letIn inValue inBody => exact .app (.lam inBody) inValue
  · intro h
    cases h with
    | app function argument =>
      cases function with
      | lam inBody => exact .letIn argument inBody

/-- The lambda is evaluated where the value is: next to it, one level deeper than the whole. If there is neither fuel nor
room for the lambda then there is none for the value, and otherwise the lambda is done at once. -/
theorem evalWithin_let (fuel room : Nat) (ρ : Scope) :
    (letIn false x value body s).evalWithin fuel room ρ = (app (lam x body s₁) value s₂).evalWithin fuel room ρ := by
  obtain _ | fuel := fuel
  · simp only [evalWithin]
  obtain _ | room := room
  · simp only [evalWithin]
  rw [evalWithin_letIn, evalWithin_app]
  -- what is left is for the parts
  obtain _ | fuel := fuel
  · simp only [evalWithin, Outcome.unfinished_bind]
  obtain _ | room := room
  · simp only [evalWithin, Outcome.failed_bind]
  have closure : (lam x body s₁).evalWithin (fuel + 1) (room + 1) ρ = .done (.closure x.name body ρ none) := by
    rw [evalWithin]
  rw [closure, Outcome.done_bind]
  refine bind_congr fun v => ?_
  rw [Value.call_closure]
  rfl

/-- **A let is an application.** Inference succeeds on `let x = v in b` if and only if it succeeds on `(\x -> b) v`, in
every environment without unknowns, and the types are then the same up to a permutation of the unknowns. In every scope
evaluation gives the same for both, however much fuel there is. -/
theorem let_interchangeable (x : Ident) (value body : Expr) (s s₁ s₂ : Span) :
    (∀ Γ : TypeEnv, Γ.Closed →
      ((∃ t, (letIn false x value body s).infer Γ = .ok t) ↔
        ∃ t, (app (lam x body s₁) value s₂).infer Γ = .ok t) ∧
      ∀ t t', (letIn false x value body s).infer Γ = .ok t → (app (lam x body s₁) value s₂).infer Γ = .ok t' →
        ∃ π : Equiv.Perm Nat, t.rename π = t') ∧
    ∀ (ρ : Scope) (fuel : Nat),
      (letIn false x value body s).eval fuel ρ = (app (lam x body s₁) value s₂).eval fuel ρ := by
  refine ⟨fun Γ closed => ⟨?_, fun t t' ok ok' => ?_⟩, fun ρ fuel => evalWithin_let fuel fullRoom ρ⟩
  · rw [exists_infer_iff closed, exists_infer_iff closed]
    exact exists_congr fun T => hasType_let_iff
  · exact infer_perm closed (fun T => hasType_let_iff) ok ok'

/-- `\z -> f` -/
def ignoring : Expr := .lam ⟨"z", {}⟩ (.var ⟨"f", {}⟩) {}

/-- `\y -> y` -/
def identity : Expr := .lam ⟨"y", {}⟩ (.var ⟨"y", {}⟩) {}

/-- The application hands out the unknown of `y` after that of `z`, and the `let` does so before. -/
theorem let_interchangeable_ignoring :
    TypeEnv.Closed {} ∧
    (letIn false ⟨"f", {}⟩ identity ignoring {}).infer {} = .ok (.fn (.unknown 2) (.fn (.unknown 1) (.unknown 1))) ∧
    (app (lam ⟨"f", {}⟩ ignoring {}) identity {}).infer {} = .ok (.fn (.unknown 2) (.fn (.unknown 3) (.unknown 3))) ∧
    (∃ π : Equiv.Perm Nat, (Ty.fn (.unknown 2) (.fn (.unknown 1) (.unknown 1))).rename π =
      .fn (.unknown 2) (.fn (.unknown 3) (.unknown 3))) ∧
    (letIn false ⟨"f", {}⟩ identity ignoring {}).eval 2 {} =
      .done (.closure "z" (.var ⟨"f", {}⟩) ⟨[("f", .closure "y" (.var ⟨"y", {}⟩) {} none)]⟩ none) ∧
    (app (lam ⟨"f", {}⟩ ignoring {}) identity {}).eval 2 {} =
      .done (.closure "z" (.var ⟨"f", {}⟩) ⟨[("f", .closure "y" (.var ⟨"y", {}⟩) {} none)]⟩ none) := by
  have bound : (letIn false ⟨"f", {}⟩ identity ignoring {}).infer {} =
      .ok (.fn (.unknown 2) (.fn (.unknown 1) (.unknown 1))) := by cbv
  have applied : (app (lam ⟨"f", {}⟩ ignoring {}) identity {}).infer {} =
      .ok (.fn (.unknown 2) (.fn (.unknown 3) (.unknown 3))) := by cbv
  have value : (letIn false ⟨"f", {}⟩ identity ignoring {}).eval 2 {} =
      .done (.closure "z" (.var ⟨"f", {}⟩) ⟨[("f", .closure "y" (.var ⟨"y", {}⟩) {} none)]⟩ none) := by cbv
  obtain ⟨types, evaluation⟩ := let_interchangeable ⟨"f", {}⟩ identity ignoring {} {} {}
  refine ⟨TypeEnv.closed_empty, bound, applied, (types {} TypeEnv.closed_empty).2 _ _ bound applied, value, ?_⟩
  rw [← evaluation, value]

end Expr

end Monolet
