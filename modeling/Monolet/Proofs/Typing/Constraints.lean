import Mathlib
import Monolet.Proofs.Typing.Derivation

/-!
# Inference as constraint solving

Inference hands out unknowns, resolves types and unifies, all in one walk. The same walk can be cut in two.
`Expr.generate` only hands out unknowns: it looks at no substitution and lists what inference would ask for, in
order. `enforceAll` then goes through the list and stops at the first item that cannot be met.

Both ways end alike (`Check.infer_mirrors`). Inference resolves the type of a `let` before it goes on, and so works
in another environment than generation does. The two environments agree once they are resolved
(`TypeEnv.Alike`), they stay so as solutions are added (`Grows.apply_apply`: a later resolution absorbs an
earlier one), and unification looks at resolved types only.
-/

namespace Monolet

/-- What inference asks for: that two types be equal, or that a name be bound which is not. -/
inductive Constraint where
  | equal (left right : Ty) (span : Span)
  | unbound (name : String) (span : Span)

/-- What generation makes of an expression: the constraints in the order in which inference meets them, a type, and
the number of unknowns handed out. -/
structure Generated where
  constraints : List Constraint
  ty : Ty
  supply : Nat

namespace Expr

/-- Generate constraints after `n` unknowns were handed out. A name that is not bound may have any type here, because
its constraint is never met. -/
def generate (Γ : TypeEnv) (n : Nat) : Expr → Generated
  | int .. => ⟨[], .int, n⟩
  | bool .. => ⟨[], .bool, n⟩
  | string .. => ⟨[], .string, n⟩
  | var x =>
    match Γ.get? x.name with
    | some ty => ⟨[], ty, n⟩
    | none => ⟨[.unbound x.name x.span], .int, n⟩
  | lam x body _ =>
    let arg := .unknown (n + 1)
    let b := body.generate (Γ.insert x.name arg) (n + 1)
    ⟨b.constraints, .fn arg b.ty, b.supply⟩
  | app f a span =>
    let g := f.generate Γ n
    let h := a.generate Γ g.supply
    let res := .unknown (h.supply + 1)
    ⟨g.constraints ++ (h.constraints ++ [.equal g.ty (.fn h.ty res) span]), res, h.supply + 1⟩
  | letIn false x value body _ =>
    let v := value.generate Γ n
    let b := body.generate (Γ.insert x.name v.ty) v.supply
    ⟨v.constraints ++ b.constraints, b.ty, b.supply⟩
  | letIn true x value body span =>
    let placeholder := .unknown (n + 1)
    let v := value.generate (Γ.insert x.name placeholder) (n + 1)
    let b := body.generate (Γ.insert x.name placeholder) v.supply
    ⟨v.constraints ++ ([.equal placeholder v.ty span] ++ b.constraints), b.ty, b.supply⟩
  | cond c t e span =>
    let c' := c.generate Γ n
    let t' := t.generate Γ c'.supply
    let e' := e.generate Γ t'.supply
    ⟨c'.constraints ++ ([.equal c'.ty .bool c.span] ++
      (t'.constraints ++ (e'.constraints ++ [.equal t'.ty e'.ty span]))), t'.ty, e'.supply⟩

end Expr

/-- Meet one constraint. -/
def Constraint.enforce : Constraint → Check TypeError Unit
  | equal left right span => Check.unifyAt span left right
  | unbound name span => throw (.unknownVariable name span)

namespace Check

/-- Meet constraints one after the other, up to the first that cannot be met. -/
def enforceAll : List Constraint → Check TypeError Unit
  | [] => pure ()
  | c :: cs => c.enforce >>= fun _ => enforceAll cs

/-- Inference ended as enforcing did: with the same error and entries, or in the same state with a type that resolves
to what `ty` resolves to. -/
def SameOutcome (ty : Ty) : EStateM.Result TypeError CheckState Ty → EStateM.Result TypeError CheckState Unit → Prop
  | .ok ty' s, .ok () s' => s = s' ∧ s.subst.apply ty' = s.subst.apply ty
  | .error err s, .error err' s' => err = err' ∧ s.subst = s'.subst
  | _, _ => False

end Check

/-! ## Resolving again -/

namespace CheckState.Grows

variable {s s' : CheckState} {l r : Ty}

theorem apply_apply (h : s.Grows s') (t : Ty) : s'.subst.apply (s.subst.apply t) = s'.subst.apply t :=
  h.acyclic.apply_apply h.keeps t

/-- Types that resolve alike go on to resolve alike. -/
theorem apply_eq (h : s.Grows s') (eq : s.subst.apply l = s.subst.apply r) :
    s'.subst.apply l = s'.subst.apply r := by
  rw [← h.apply_apply l, eq, h.apply_apply r]

end CheckState.Grows

/-- Two environments bind the same names, to types that resolve alike. -/
def TypeEnv.Alike (σ : Subst) (Γ Δ : TypeEnv) : Prop := ∀ x, (Γ.get? x).map σ.apply = (Δ.get? x).map σ.apply

namespace TypeEnv.Alike

variable {Γ Δ : TypeEnv} {s s' : CheckState}

theorem grow (h : TypeEnv.Alike s.subst Γ Δ) (grows : s.Grows s') : TypeEnv.Alike s'.subst Γ Δ := by
  intro x
  have later (o : Option Ty) : (o.map s.subst.apply).map s'.subst.apply = o.map s'.subst.apply := by
    cases o with
    | none => rfl
    | some t => exact congrArg some (grows.apply_apply t)
  rw [← later, h x, later]

theorem insert {σ : Subst} {t u : Ty} (h : TypeEnv.Alike σ Γ Δ) (x : String) (eq : σ.apply t = σ.apply u) :
    TypeEnv.Alike σ (Γ.insert x t) (Δ.insert x u) := by
  intro y
  rw [NameMap.get?_insert, NameMap.get?_insert]
  split
  · exact congrArg some eq
  · exact h y

end TypeEnv.Alike

/-! ## Two runs side by side -/

namespace Check

variable {α β : Type} {m : Nat} {s t : CheckState}

/-- A run ended as enforcing did from a state whose supply is `m`: both with the same error, or both well and with a
value and state that `P` holds of. Enforcing uses no supply, so the states differ in the supply alone. -/
inductive Mirrors (m : Nat) (P : α → CheckState → Prop) :
    EStateM.Result TypeError CheckState α → EStateM.Result TypeError CheckState Unit → Prop where
  | ok {a : α} {s : CheckState} (holds : P a s) : Mirrors m P (.ok a s) (.ok () { s with supply := m })
  | error (err : TypeError) (s : CheckState) : Mirrors m P (.error err s) (.error err { s with supply := m })

theorem Mirrors.mono {P Q : α → CheckState → Prop} {r : EStateM.Result TypeError CheckState α}
    {r' : EStateM.Result TypeError CheckState Unit} (h : Mirrors m P r r') (imp : ∀ a s, P a s → Q a s) :
    Mirrors m Q r r' := by
  cases h with
  | ok holds => exact .ok (imp _ _ holds)
  | error err s => exact .error err s

theorem enforceAll_append (cs ds : List Constraint) :
    enforceAll (cs ++ ds) = enforceAll cs >>= fun _ => enforceAll ds := by
  induction cs with
  | nil => rfl
  | cons c cs ih =>
    rw [List.cons_append, enforceAll, ih, enforceAll]
    funext s
    simp only [bind, EStateM.bind]
    cases c.enforce s <;> rfl

/-- Runs that mirror the first constraints and then the others mirror all of them. -/
theorem Mirrors.bind {P : α → CheckState → Prop} {Q : β → CheckState → Prop} {x : Check TypeError α}
    {f : α → Check TypeError β} {cs ds : List Constraint} (first : Mirrors m P (x s) (enforceAll cs t))
    (second : ∀ a s', P a s' → Mirrors m Q (f a s') (enforceAll ds { s' with supply := m })) :
    Mirrors m Q ((x >>= f) s) (enforceAll (cs ++ ds) t) := by
  rw [enforceAll_append]
  simp only [Bind.bind, EStateM.bind]
  generalize x s = r at first
  generalize enforceAll cs t = r' at first
  cases first with
  | ok holds => exact second _ _ holds
  | error err s => exact .error err s

/-- What a run ends with when it changes the state no more asks for no constraints. -/
theorem Mirrors.last {P : α → CheckState → Prop} {Q : β → CheckState → Prop} {x : Check TypeError α}
    {f : α → Check TypeError β} {cs : List Constraint} (h : Mirrors m P (x s) (enforceAll cs t))
    (ends : ∀ a s', P a s' → ∃ b, f a s' = .ok b s' ∧ Q b s') :
    Mirrors m Q ((x >>= f) s) (enforceAll cs t) := by
  rw [← List.append_nil cs]
  refine h.bind fun a s' holds => ?_
  obtain ⟨b, eq, hb⟩ := ends a s' holds
  rw [eq]
  exact .ok hb

/-- Unification looks at resolved types only. -/
theorem mirrors_unifyAt {l l' r r' : Ty} (span : Span) (acyclic : s.subst.Acyclic)
    (left : s.subst.apply l = s.subst.apply l') (right : s.subst.apply r = s.subst.apply r') :
    Mirrors m (fun _ s' => s.Grows s' ∧ s'.supply = s.supply ∧ s'.subst.apply l = s'.subst.apply r)
      (unifyAt span l r s) (enforceAll [.equal l' r' span] { s with supply := m }) := by
  have same : Subst.unify l' r' s.subst = Subst.unify l r s.subst := by
    rw [Subst.unify, Subst.unify, left, right]
  have grows := growing_unifyAt span l r s acyclic
  simp only [enforceAll, Constraint.enforce, Bind.bind, EStateM.bind, after, unifyAt, EStateM.adaptExcept, unify,
    same] at grows ⊢
  cases unified : Subst.unify l r s.subst with
  | ok u σ =>
    rw [unified] at grows
    obtain ⟨acyclic', solutions⟩ := Subst.unify_ok acyclic unified
    exact .ok ⟨grows, rfl, Subst.apply_eq_apply acyclic' fun θ sat => ((solutions θ).1 sat).2⟩
  | error err σ => exact .error _ _

/-! ## The walk -/

/-- Where a part of the walk that started in `s` has come to when generation has come to `g`. -/
structure Reaches (s : CheckState) (g : Generated) (ty : Ty) (s' : CheckState) : Prop where
  grows : s.Grows s'
  supply : s'.supply = g.supply
  same : s'.subst.apply ty = s'.subst.apply g.ty

/-- Inference mirrors the constraints that are generated in an environment that resolves alike. -/
theorem infer_mirrors (e : Expr) {Γ Δ : TypeEnv} {s : CheckState} (acyclic : s.subst.Acyclic)
    (alike : TypeEnv.Alike s.subst Γ Δ) (m : Nat) :
    Mirrors m (Reaches s (e.generate Δ s.supply)) (infer Γ e s)
      (enforceAll (e.generate Δ s.supply).constraints { s with supply := m }) := by
  induction e generalizing Γ Δ s with
  | int | bool | string => exact .ok ⟨.refl acyclic, rfl, rfl⟩
  | var x =>
    have found := alike x.name
    rw [infer, Expr.generate]
    cases hΓ : Γ.get? x.name with
    | none =>
      rw [hΓ] at found
      rw [Option.map_eq_none_iff.1 found.symm]
      exact .error _ _
    | some ty =>
      rw [hΓ] at found
      obtain ⟨ty', hΔ, eq⟩ := Option.map_eq_some_iff.1 found.symm
      rw [hΔ]
      exact .ok ⟨.refl acyclic, rfl, eq.symm⟩
  | lam x body span ih =>
    have grows : s.Grows { s with supply := s.supply + 1 } := growing_fresh (ε := TypeError) s acyclic
    have inner := ih (Γ := Γ.insert x.name (.unknown (s.supply + 1))) grows.acyclic (alike.insert x.name rfl)
    refine inner.last fun res s' reached => ⟨_, rfl, grows.trans reached.grows, reached.supply, ?_⟩
    exact congrArg (Ty.fn _) reached.same
  | app f a span ihf iha =>
    refine (ihf acyclic alike).bind fun fnTy s₁ function => ?_
    have argument := iha function.grows.acyclic (alike.grow function.grows)
    rw [function.supply] at argument
    refine argument.bind fun arg s₂ argument => ?_
    obtain ⟨σ, _⟩ := s₂
    let h := a.generate Δ (f.generate Δ s.supply).supply
    let n := h.supply
    obtain rfl : _ = n := argument.supply
    have next : CheckState.Grows ⟨σ, n⟩ ⟨σ, n + 1⟩ := growing_fresh (ε := TypeError) ⟨σ, n⟩ argument.grows.acyclic
    let res := Ty.unknown (n + 1)
    have expected : σ.apply (.fn arg res) = σ.apply (.fn h.ty res) := congrArg (Ty.fn · (σ.apply res)) argument.same
    have unified := mirrors_unifyAt (m := m) span next.acyclic (argument.grows.apply_eq function.same) expected
    exact unified.last fun _ s₃ solved =>
      ⟨_, rfl, function.grows.trans (argument.grows.trans (next.trans solved.1)), solved.2.1, rfl⟩
  | letIn recursive x value body span ihv ihb =>
    cases recursive with
    | false =>
      refine (ihv acyclic alike).bind fun ty s₁ bound => ?_
      have result := ihb bound.grows.acyclic ((alike.grow bound.grows).insert x.name
        (t := s₁.subst.apply ty) (((CheckState.Grows.refl bound.grows.acyclic).apply_apply ty).trans bound.same))
      rw [bound.supply] at result
      exact result.mono fun _ _ reached => ⟨bound.grows.trans reached.grows, reached.supply, reached.same⟩
    | true =>
      have next : s.Grows { s with supply := s.supply + 1 } := growing_fresh (ε := TypeError) s acyclic
      have value := ihv next.acyclic (alike.insert x.name (t := .unknown (s.supply + 1)) rfl)
      refine value.bind fun ty s₁ bound => ?_
      have unified := mirrors_unifyAt (m := m) (l := .unknown (s.supply + 1)) span bound.grows.acyclic rfl bound.same
      refine unified.bind fun _ s₂ solved => ?_
      have grown := next.trans (bound.grows.trans solved.1)
      have result := ihb solved.1.acyclic ((alike.grow grown).insert x.name
        ((CheckState.Grows.refl solved.1.acyclic).apply_apply (.unknown (s.supply + 1))))
      rw [solved.2.1, bound.supply] at result
      exact result.mono fun _ _ reached => ⟨grown.trans reached.grows, reached.supply, reached.same⟩
  | cond c t e span ihc iht ihe =>
    refine (ihc acyclic alike).bind fun cTy s₁ condition => ?_
    have isBool := mirrors_unifyAt (m := m) (r := .bool) c.span condition.grows.acyclic condition.same rfl
    refine isBool.bind fun _ s₂ checked => ?_
    have grown₂ := condition.grows.trans checked.1
    have yes := iht checked.1.acyclic (alike.grow grown₂)
    rw [checked.2.1, condition.supply] at yes
    refine yes.bind fun tTy s₃ yes => ?_
    have grown₃ := grown₂.trans yes.grows
    have no := ihe yes.grows.acyclic (alike.grow grown₃)
    rw [yes.supply] at no
    refine no.bind fun eTy s₄ no => ?_
    have agree := mirrors_unifyAt (m := m) span no.grows.acyclic (no.grows.apply_eq yes.same) no.same
    exact agree.last fun _ s₅ agreed => ⟨_, rfl, grown₃.trans (no.grows.trans agreed.1), agreed.2.1.trans no.supply,
      ((CheckState.Grows.refl agreed.1.acyclic).apply_apply tTy).trans
        ((no.grows.trans agreed.1).apply_eq yes.same)⟩

/-- **Inference is generating and then solving.** From a state without cycles, inference ends as enforcing the
generated constraints in order does: with the same error, or in the same state and with a type that resolves to the
same type as the generated one. -/
theorem infer_sameOutcome (s : CheckState) (acyclic : s.subst.Acyclic) (Γ : TypeEnv) (e : Expr) :
    SameOutcome (e.generate Γ s.supply).ty (infer Γ e s)
      (enforceAll (e.generate Γ s.supply).constraints { s with supply := (e.generate Γ s.supply).supply }) := by
  have mirrors := infer_mirrors e (Γ := Γ) acyclic (fun _ => rfl) (e.generate Γ s.supply).supply
  generalize infer Γ e s = r at mirrors ⊢
  generalize enforceAll _ _ = r' at mirrors ⊢
  cases mirrors with
  | ok reached => exact ⟨by rw [← reached.supply], reached.same⟩
  | error err s' => exact ⟨rfl, rfl⟩

end Check

/-- `let g = f in g 1` -/
def Expr.callAlias : Expr := .letIn false ⟨"g", {}⟩ (.var ⟨"f", {}⟩) (.app (.var ⟨"g", {}⟩) (.int 1 {}) {}) {}

/-- With `f : u1`, inference resolves the type of `g` at once, to `u4 -> u3`, and unifies that with `Int -> u6`. Generation
asks for `u1` to be `Int -> u6`. -/
theorem Check.infer_sameOutcome_callAlias :
    Subst.chained.Acyclic ∧
      Expr.callAlias.generate (NameMap.insert {} "f" (.unknown 1)) 5 =
        ⟨[.equal (.unknown 1) (.fn .int (.unknown 6)) {}], .unknown 6, 6⟩ ∧
      ∃ s', infer (NameMap.insert {} "f" (.unknown 1)) Expr.callAlias ⟨.chained, 5⟩ = .ok (.unknown 6) s' ∧
        enforceAll [.equal (.unknown 1) (.fn .int (.unknown 6)) {}] ⟨.chained, 6⟩ = .ok () s' := by
  have acyclic : Subst.chained.Acyclic := (Subst.acyclic_empty.set rfl rfl).set rfl rfl
  have inferred : infer (NameMap.insert {} "f" (.unknown 1)) Expr.callAlias ⟨.chained, 5⟩ = .ok (.unknown 6)
      ⟨⟨[(1, .fn (.unknown 2) (.unknown 3)), (2, .unknown 4), (3, .unknown 6), (4, .int)], by simp⟩, 6⟩ := by cbv
  have same := Check.infer_sameOutcome ⟨.chained, 5⟩ acyclic (NameMap.insert {} "f" (.unknown 1)) Expr.callAlias
  rw [inferred] at same
  change SameOutcome (.unknown 6) _ (enforceAll [.equal (.unknown 1) (.fn .int (.unknown 6)) {}] ⟨.chained, 6⟩) at same
  refine ⟨acyclic, rfl, _, inferred, ?_⟩
  generalize enforceAll _ _ = r at same
  cases r with
  | ok u s' => rw [← same.1]
  | error err s' => exact same.elim

end Monolet
