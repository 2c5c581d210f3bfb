import Monolet.Proofs.Subst.Unifier

/-!
# Derivations of inference

Views of `Check.infer` that spare later proofs its monadic text. `Check.infer_growing` is about every run, failed
ones included: entries stay, no cycle arises, and the supply does not fall. `Check.FailsWith` collects what is known of
the errors of failed runs. `Infers` is about the runs that succeed: one rule for each construct, with the states before
and after every part and the unifications between them. `infer_eq_ok_iff` says that the rules describe these runs
exactly.
-/

namespace Monolet

variable {ε α β : Type}

/-! ## What every run does to the state -/

/-- The state has no cycle, keeps the entries of an earlier one, and has handed out no fewer unknowns. -/
structure CheckState.Grows (s s' : CheckState) : Prop where
  acyclic : s'.subst.Acyclic
  keeps : ∀ i t, s.subst.get? i = some t → s'.subst.get? i = some t
  supply : s.supply ≤ s'.supply

theorem CheckState.Grows.refl {s : CheckState} (h : s.subst.Acyclic) : s.Grows s :=
  ⟨h, fun _ _ ht => ht, Nat.le_refl _⟩

theorem CheckState.Grows.trans {s s' s'' : CheckState} (h : s.Grows s') (h' : s'.Grows s'') : s.Grows s'' :=
  ⟨h'.acyclic, fun i t ht => h'.keeps i t (h.keeps i t ht), Nat.le_trans h.supply h'.supply⟩

/-- What satisfies the later entries satisfies the earlier ones. -/
theorem CheckState.Grows.satisfies {s s' : CheckState} {θ : Nat → Ty} (h : s.Grows s')
    (sat : Subst.Satisfies θ s'.subst) : Subst.Satisfies θ s.subst :=
  fun i t ht => sat i t (h.keeps i t ht)

theorem Solving.Step.keeps {p q : Solving} (step : Step p q) (h : Ready p) {i : Nat} {t : Ty}
    (ht : p.subst.get? i = some t) : q.subst.get? i = some t := by
  cases step with
  | drop => exact ht
  | split => exact ht
  | solve demand => exact Subst.get?_set_of_free (h.solution demand).1 ht

namespace Check

/-- The state after a run, whatever its outcome. -/
def after (x : Check ε α) (s : CheckState) : CheckState :=
  match x s with
  | .ok _ s' => s'
  | .error _ s' => s'

/-- Every run lets the state grow. -/
def Growing (x : Check ε α) : Prop := ∀ s : CheckState, s.subst.Acyclic → s.Grows (x.after s)

theorem Growing.ok {x : Check ε α} {a : α} {s s' : CheckState} (h : x.Growing) (acyclic : s.subst.Acyclic)
    (ok : x s = .ok a s') : s.Grows s' := by
  have := h s acyclic
  rwa [after, ok] at this

theorem growing_pure (a : α) : (pure a : Check ε α).Growing := fun _ h => .refl h

theorem growing_throw (e : ε) : (throw e : Check ε α).Growing := fun _ h => .refl h

theorem growing_zonk (t : Ty) : (zonk t : Check ε Ty).Growing := fun _ h => .refl h

theorem growing_fresh : (fresh : Check ε Ty).Growing := fun _ h => ⟨h, fun _ _ ht => ht, Nat.le_succ _⟩

theorem Growing.bind {x : Check ε α} {f : α → Check ε β} (hx : x.Growing) (hf : ∀ a, (f a).Growing) :
    (x >>= f).Growing := by
  intro s h
  have first := hx s h
  rw [after] at first
  change s.Grows (after (EStateM.bind x f) s)
  rw [after, EStateM.bind]
  cases hr : x s with
  | ok a s' =>
    rw [hr] at first
    exact first.trans (hf a s' first.acyclic)
  | error e s' =>
    rw [hr] at first
    exact first

theorem growing_unify (l r : Ty) : (unify l r).Growing := by
  intro s h
  obtain ⟨q, run, ends⟩ := Subst.unify_runs h l r
  have ready := Solving.ready_start (l := l) (r := r) h
  have acyclic := (Solving.ready_of_run run ready).acyclic
  have keeps : ∀ i t, s.subst.get? i = some t → q.subst.get? i = some t := fun i t ht =>
    Solving.invariant_of_run (fun step ready ht => step.keeps ready ht) run ready ht
  rw [after, unify]
  generalize Subst.unify l r s.subst = result at ends ⊢
  cases ends with
  | solved => exact ⟨acyclic, keeps, Nat.le_refl _⟩
  | refused => exact ⟨acyclic, keeps, Nat.le_refl _⟩

theorem growing_unifyAt (span : Span) (l r : Ty) : (unifyAt span l r).Growing := by
  intro s h
  have := growing_unify l r s h
  rw [after] at this ⊢
  rw [unifyAt, EStateM.adaptExcept]
  cases hr : unify l r s <;> rw [hr] at this <;> exact this

/-- Inference only ever adds to a state. -/
theorem infer_growing (e : Expr) (Γ : TypeEnv) : (infer Γ e).Growing := by
  induction e generalizing Γ with
  | int => exact growing_pure _
  | bool => exact growing_pure _
  | string => exact growing_pure _
  | var x =>
    rw [infer]
    split
    · exact growing_pure _
    · exact growing_throw _
  | lam x body _ ih => exact growing_fresh.bind fun arg => (ih _).bind fun _ => growing_pure _
  | app f a span ihf iha =>
    refine (ihf Γ).bind fun fnTy => (iha Γ).bind fun arg => growing_fresh.bind fun res => ?_
    exact (growing_unifyAt _ _ _).bind fun _ => growing_pure _
  | letIn recursive x value body span ihv ihb =>
    cases recursive with
    | false => exact (ihv Γ).bind fun _ => (growing_zonk _).bind fun _ => ihb _
    | true =>
      refine growing_fresh.bind fun placeholder => (ihv _).bind fun ty => ?_
      exact (growing_unifyAt _ _ _).bind fun _ => (growing_zonk _).bind fun _ => ihb _
  | cond c t e span ihc iht ihe =>
    refine (ihc Γ).bind fun _ => (growing_unifyAt _ _ _).bind fun _ => (iht Γ).bind fun ty => ?_
    exact (ihe Γ).bind fun _ => (growing_unifyAt _ _ _).bind fun _ => growing_zonk _

/-! ## Runs that fail -/

/-- If the check fails, then with an error that `P` holds of. -/
def FailsWith (P : ε → Prop) (x : Check ε α) : Prop := ∀ s err s', x s = .error err s' → P err

section Error

variable {P : ε → Prop}

theorem failsWith_pure (a : α) : (pure a : Check ε α).FailsWith P := by
  intro s err s' failed
  cases failed

theorem failsWith_zonk (t : Ty) : (zonk t : Check ε Ty).FailsWith P := by
  intro s err s' failed
  cases failed

theorem failsWith_fresh : (fresh : Check ε Ty).FailsWith P := by
  intro s err s' failed
  cases failed

theorem failsWith_throw {e : ε} (h : P e) : (throw e : Check ε α).FailsWith P := by
  intro s err s' failed
  cases failed
  exact h

theorem failsWith_unifyAt {P : TypeError → Prop} {span : Span} (l r : Ty) (h : ∀ err, P (.unification err span)) :
    (unifyAt span l r).FailsWith P := by
  intro s err s' failed
  rw [unifyAt, EStateM.adaptExcept] at failed
  split at failed
  · cases failed
    exact h _
  · cases failed

theorem FailsWith.bind {x : Check ε α} {f : α → Check ε β} (hx : x.FailsWith P) (hf : ∀ a, (f a).FailsWith P) :
    (x >>= f).FailsWith P := by
  intro s err s' failed
  change EStateM.bind x f s = _ at failed
  rw [EStateM.bind] at failed
  split at failed
  next a s₁ ran => exact hf a s₁ err s' failed
  next err' s₁ ran =>
    cases failed
    exact hx s _ _ ran

end Error

/-! ## Runs that succeed -/

section Ok

variable {s s' s'' : CheckState}

theorem after_of_ok {x : Check ε α} {a : α} (ran : x s = .ok a s') : x.after s = s' := by
  rw [after, ran]

theorem after_of_error {x : Check ε α} {e : ε} (ran : x s = .error e s') : x.after s = s' := by
  rw [after, ran]

theorem bind_of_ok {x : Check ε α} {f : α → Check ε β} {a : α} (ran : x s = .ok a s') : (x >>= f) s = f a s' := by
  change EStateM.bind x f s = _
  rw [EStateM.bind, ran]

theorem bind_of_error {x : Check ε α} {f : α → Check ε β} {e : ε} (ran : x s = .error e s') :
    (x >>= f) s = .error e s' := by
  change EStateM.bind x f s = _
  rw [EStateM.bind, ran]

theorem bind_eq_ok {x : Check ε α} {f : α → Check ε β} {b : β} :
    (x >>= f) s = .ok b s'' ↔ ∃ a s', x s = .ok a s' ∧ f a s' = .ok b s'' := by
  change EStateM.bind x f s = _ ↔ _
  rw [EStateM.bind]
  cases x s with
  | ok a s' =>
    constructor
    · intro h
      exact ⟨a, s', rfl, h⟩
    · rintro ⟨a, s', ok, h⟩
      cases ok
      exact h
  | error e s' => simp

theorem pure_eq_ok {a b : α} : (pure a : Check ε α) s = .ok b s' ↔ a = b ∧ s = s' := by
  change EStateM.Result.ok a s = _ ↔ _
  simp

theorem fresh_eq_ok {t : Ty} :
    (fresh : Check ε Ty) s = .ok t s' ↔ .unknown (s.supply + 1) = t ∧ { s with supply := s.supply + 1 } = s' := by
  rw [fresh]
  simp

theorem zonk_eq_ok {t u : Ty} : (zonk t : Check ε Ty) s = .ok u s' ↔ s.subst.apply t = u ∧ s = s' := by
  rw [zonk]
  simp

theorem unifyAt_eq_ok {span : Span} {l r : Ty} {u : Unit} :
    unifyAt span l r s = .ok u s' ↔ ∃ σ, Subst.unify l r s.subst = .ok () σ ∧ { s with subst := σ } = s' := by
  rw [unifyAt, EStateM.adaptExcept, ← unify_eq_ok (u := u)]
  cases unify l r s <;> simp

end Ok

end Check

/-- Inference succeeds on an expression with a type, and takes one state to another. -/
inductive Infers : TypeEnv → Expr → CheckState → Ty → CheckState → Prop where
  | int {Γ : TypeEnv} {n : Int64} {span : Span} {s : CheckState} : Infers Γ (.int n span) s .int s
  | bool {Γ : TypeEnv} {b : Bool} {span : Span} {s : CheckState} : Infers Γ (.bool b span) s .bool s
  | string {Γ : TypeEnv} {text : String} {span : Span} {s : CheckState} :
      Infers Γ (.string text span) s .string s
  | var {Γ : TypeEnv} {x : Ident} {t : Ty} {s : CheckState} :
      Γ.get? x.name = some t → Infers Γ (.var x) s t s
  | lam {Γ : TypeEnv} {x : Ident} {body : Expr} {span : Span} {s s' : CheckState} {res : Ty} :
      Infers (Γ.insert x.name (.unknown (s.supply + 1))) body { s with supply := s.supply + 1 } res s' →
        Infers Γ (.lam x body span) s (.fn (.unknown (s.supply + 1)) res) s'
  | app {Γ : TypeEnv} {f a : Expr} {span : Span} {s s₁ s₂ : CheckState} {fnTy arg : Ty} {σ : Subst} :
      Infers Γ f s fnTy s₁ → Infers Γ a s₁ arg s₂ →
        Subst.unify fnTy (.fn arg (.unknown (s₂.supply + 1))) s₂.subst = .ok () σ →
          Infers Γ (.app f a span) s (.unknown (s₂.supply + 1)) ⟨σ, s₂.supply + 1⟩
  | letIn {Γ : TypeEnv} {x : Ident} {value body : Expr} {span : Span} {s s₁ s' : CheckState} {ty res : Ty} :
      Infers Γ value s ty s₁ → Infers (Γ.insert x.name (s₁.subst.apply ty)) body s₁ res s' →
        Infers Γ (.letIn false x value body span) s res s'
  | letRec {Γ : TypeEnv} {x : Ident} {value body : Expr} {span : Span} {s s₁ s' : CheckState} {ty res : Ty}
      {σ : Subst} :
      Infers (Γ.insert x.name (.unknown (s.supply + 1))) value { s with supply := s.supply + 1 } ty s₁ →
        Subst.unify (.unknown (s.supply + 1)) ty s₁.subst = .ok () σ →
          Infers (Γ.insert x.name (σ.apply (.unknown (s.supply + 1)))) body { s₁ with subst := σ } res s' →
            Infers Γ (.letIn true x value body span) s res s'
  | cond {Γ : TypeEnv} {c t e : Expr} {span : Span} {s s₁ s₂ s₃ : CheckState} {cTy tTy eTy : Ty}
      {σ σ' : Subst} :
      Infers Γ c s cTy s₁ → Subst.unify cTy .bool s₁.subst = .ok () σ →
        Infers Γ t { s₁ with subst := σ } tTy s₂ → Infers Γ e s₂ eTy s₃ →
          Subst.unify tTy eTy s₃.subst = .ok () σ' →
            Infers Γ (.cond c t e span) s (σ'.apply tTy) { s₃ with subst := σ' }

namespace Check

theorem infers_of_infer {Γ : TypeEnv} {e : Expr} {s s' : CheckState} {t : Ty} (h : infer Γ e s = .ok t s') :
    Infers Γ e s t s' := by
  induction e generalizing Γ s s' t with
  | int =>
    obtain ⟨rfl, rfl⟩ := pure_eq_ok.1 h
    exact .int
  | bool =>
    obtain ⟨rfl, rfl⟩ := pure_eq_ok.1 h
    exact .bool
  | string =>
    obtain ⟨rfl, rfl⟩ := pure_eq_ok.1 h
    exact .string
  | var x =>
    cases found : Γ.get? x.name with
    | none =>
      rw [infer, found] at h
      cases h
    | some ty =>
      rw [infer, found] at h
      obtain ⟨rfl, rfl⟩ := pure_eq_ok.1 h
      exact .var found
  | lam x body span ih =>
    simp only [infer, bind_eq_ok, fresh_eq_ok, pure_eq_ok] at h
    obtain ⟨_, _, ⟨rfl, rfl⟩, res, s₁, hb, rfl, rfl⟩ := h
    exact .lam (ih hb)
  | app f a span ihf iha =>
    simp only [infer, bind_eq_ok, fresh_eq_ok, pure_eq_ok, unifyAt_eq_ok] at h
    obtain ⟨fnTy, s₁, hf, arg, s₂, ha, _, _, ⟨rfl, rfl⟩, _, _, ⟨σ, unified, rfl⟩, rfl, rfl⟩ := h
    exact .app (ihf hf) (iha ha) unified
  | letIn recursive x value body span ihv ihb =>
    cases recursive with
    | false =>
      simp only [infer, bind_eq_ok, zonk_eq_ok] at h
      obtain ⟨ty, s₁, hv, _, _, ⟨rfl, rfl⟩, hb⟩ := h
      exact .letIn (ihv hv) (ihb hb)
    | true =>
      simp only [infer, bind_eq_ok, fresh_eq_ok, zonk_eq_ok, unifyAt_eq_ok] at h
      obtain ⟨_, _, ⟨rfl, rfl⟩, ty, s₁, hv, _, _, ⟨σ, unified, rfl⟩, _, _, ⟨rfl, rfl⟩, hb⟩ := h
      exact .letRec (ihv hv) unified (ihb hb)
  | cond c t e span ihc iht ihe =>
    simp only [infer, bind_eq_ok, zonk_eq_ok, unifyAt_eq_ok] at h
    obtain ⟨cTy, s₁, hc, _, _, ⟨σ, isBool, rfl⟩, tTy, s₂, ht, eTy, s₃, he, _, _, ⟨σ', agree, rfl⟩, rfl, rfl⟩ := h
    exact .cond (ihc hc) isBool (iht ht) (ihe he) agree

theorem infer_of_infers {Γ : TypeEnv} {e : Expr} {s s' : CheckState} {t : Ty} (h : Infers Γ e s t s') :
    infer Γ e s = .ok t s' := by
  induction h with
  | int => rfl
  | bool => rfl
  | string => rfl
  | var found => rw [infer, found]; rfl
  | lam _ ih =>
    simp only [infer, bind_eq_ok, fresh_eq_ok, pure_eq_ok]
    exact ⟨_, _, ⟨rfl, rfl⟩, _, _, ih, rfl, rfl⟩
  | app _ _ unified ihf iha =>
    simp only [infer, bind_eq_ok, fresh_eq_ok, pure_eq_ok, unifyAt_eq_ok]
    exact ⟨_, _, ihf, _, _, iha, _, _, ⟨rfl, rfl⟩, (), _, ⟨_, unified, rfl⟩, rfl, rfl⟩
  | letIn _ _ ihv ihb =>
    simp only [infer, bind_eq_ok, zonk_eq_ok]
    exact ⟨_, _, ihv, _, _, ⟨rfl, rfl⟩, ihb⟩
  | letRec _ unified _ ihv ihb =>
    simp only [infer, bind_eq_ok, fresh_eq_ok, zonk_eq_ok, unifyAt_eq_ok]
    exact ⟨_, _, ⟨rfl, rfl⟩, _, _, ihv, (), _, ⟨_, unified, rfl⟩, _, _, ⟨rfl, rfl⟩, ihb⟩
  | cond _ isBool _ _ agree ihc iht ihe =>
    simp only [infer, bind_eq_ok, zonk_eq_ok, unifyAt_eq_ok]
    exact ⟨_, _, ihc, (), _, ⟨_, isBool, rfl⟩, _, _, iht, _, _, ihe, (), _, ⟨_, agree, rfl⟩, rfl, rfl⟩

theorem infer_eq_ok_iff {Γ : TypeEnv} {e : Expr} {s s' : CheckState} {t : Ty} :
    infer Γ e s = .ok t s' ↔ Infers Γ e s t s' :=
  ⟨infers_of_infer, infer_of_infers⟩

end Check

theorem Infers.grows {Γ : TypeEnv} {e : Expr} {s s' : CheckState} {t : Ty} (h : Infers Γ e s t s')
    (acyclic : s.subst.Acyclic) : s.Grows s' :=
  (Check.infer_growing e Γ).ok acyclic (Check.infer_of_infers h)

/-- The type of an expression is the resolved type of a run from the empty state. -/
theorem Expr.infer_eq_ok_iff {Γ : TypeEnv} {e : Expr} {t : Ty} :
    e.infer Γ = .ok t ↔ ∃ raw s, Infers Γ e {} raw s ∧ s.subst.apply raw = t := by
  rw [Expr.infer]
  simp only [← Check.infer_eq_ok_iff]
  cases hr : (Check.infer Γ e >>= Check.zonk) {} with
  | ok u s' =>
    obtain ⟨raw, s, ok, zonked⟩ := Check.bind_eq_ok.1 hr
    obtain ⟨rfl, rfl⟩ := Check.zonk_eq_ok.1 zonked
    simp [ok]
  | error err s' =>
    simp only [reduceCtorEq, false_iff, not_exists, not_and]
    intro raw s ok _
    have : (Check.infer Γ e >>= Check.zonk) {} = .ok (s.subst.apply raw) s :=
      Check.bind_eq_ok.2 ⟨raw, s, ok, rfl⟩
    rw [hr] at this
    cases this

/-- Resolving cannot fail, so the error is that of the run. -/
theorem Expr.infer_eq_error_iff {Γ : TypeEnv} {e : Expr} {err : TypeError} :
    e.infer Γ = .error err ↔ ∃ s, Check.infer Γ e {} = .error err s := by
  rw [Expr.infer]
  cases ran : Check.infer Γ e {} with
  | ok t s => simp [Check.bind_of_ok ran, Check.zonk]
  | error err' s => simp [Check.bind_of_error ran]

end Monolet
