import Mathlib
import Monolet.Proofs.Subst.Renaming
import Monolet.Proofs.Typing.Derivation
import Monolet.Proofs.Typing.Rules

/-!
# Inference does not depend on the numbers of unknowns

Inference hands out the unknowns 1, 2, … in every new state, whatever unknowns the environment mentions. Two runs whose
states and environments are renamings of one another do the same step by step (`FreshRenaming.infer_follows`), as long as
the renaming fits the unknowns that are still handed out. Hence the result does not depend on how the unknowns of the
environment are numbered, if they are told apart from the ones handed out (`Expr.infer_rename`). If they are not, an
unknown handed out is taken for one of the environment.
-/

namespace Monolet

/-- The error with other numbers for its unknowns. -/
def TypeError.rename (g : Nat → Nat) : TypeError → TypeError
  | unknownVariable name span => unknownVariable name span
  | unification error span => unification (error.rename g) span

/-- All unknowns of the error are in the set. -/
def TypeError.Within (used : Set Nat) : TypeError → Prop
  | unknownVariable .. => True
  | unification error _ => error.Within used

/-- A renaming of the unknowns in use that also settles those still to be handed out, up to the last one: all of them move
up by the same number. -/
structure FreshRenaming extends Renaming where
  shift : Nat
  last : Nat
  ahead : ∀ i, 0 < i → i ≤ last → i ∈ used ∧ map i = i + shift

namespace FreshRenaming

variable {ρ : FreshRenaming} {α β : Type} {s s' : CheckState} {t t' u u' : Ty} {Γ Γ' : TypeEnv}

/-! ## States, types and environments -/

/-- Two states with the same entries up to renaming, and supplies that differ by the shift. -/
structure OfState (ρ : FreshRenaming) (s s' : CheckState) : Prop where
  subst : ρ.OfSubst s.subst s'.subst
  supply : s'.supply = s.supply + ρ.shift

/-- A type with unknowns in use, and the renamed type. -/
structure OfTy (ρ : FreshRenaming) (t t' : Ty) : Prop where
  eq : t' = t.rename ρ.map
  within : t.Within ρ.used

/-- The second environment has the types of the first, renamed. -/
def OfEnv (ρ : FreshRenaming) (Γ Γ' : TypeEnv) : Prop := ∀ x, Option.Rel ρ.OfTy (Γ.get? x) (Γ'.get? x)

theorem OfTy.fn (h : ρ.OfTy t t') (h' : ρ.OfTy u u') : ρ.OfTy (.fn t u) (.fn t' u') :=
  ⟨by rw [h.eq, h'.eq, Ty.rename_fn], Ty.within_fn.2 ⟨h.within, h'.within⟩⟩

theorem OfTy.apply (h : ρ.OfTy t t') (hs : ρ.OfState s s') : ρ.OfTy (s.subst.apply t) (s'.subst.apply t') := by
  obtain ⟨eq, within⟩ := hs.subst.apply h.within
  exact ⟨by rw [h.eq, eq], within⟩

theorem OfEnv.insert (h : ρ.OfEnv Γ Γ') (ht : ρ.OfTy t t') (x : String) :
    ρ.OfEnv (Γ.insert x t) (Γ'.insert x t') := by
  intro y
  rw [NameMap.get?_insert, NameMap.get?_insert]
  split
  · exact .some ht
  · exact h y

/-! ## Checks -/

/-- Two outcomes that are the same up to renaming. Errors have unknowns in use only. -/
inductive OfOutcome (ρ : FreshRenaming) (R : α → α → Prop) :
    EStateM.Result TypeError CheckState α → EStateM.Result TypeError CheckState α → Prop
  | ok {a a' : α} {s s' : CheckState} (value : R a a') (state : ρ.OfState s s') : OfOutcome ρ R (.ok a s) (.ok a' s')
  | error {s s' : CheckState} (err : TypeError) (within : err.Within ρ.used) (state : ρ.OfState s s') :
      OfOutcome ρ R (.error err s) (.error (err.rename ρ.map) s')

theorem OfOutcome.error_within {R : α → α → Prop} {err : TypeError} {r' : EStateM.Result TypeError CheckState α}
    (h : ρ.OfOutcome R (.error err s) r') : err.Within ρ.used := by
  cases h with
  | error _ within => exact within

/-- Given `P`, the second check does the same as the first up to renaming, if the first does not go past the last unknown
that is settled. -/
structure Follows (ρ : FreshRenaming) (P : Prop) (R : α → α → Prop) (x x' : Check TypeError α) : Prop where
  growing : x.Growing
  outcome : P → ∀ s s', ρ.OfState s s' → (x.after s).supply ≤ ρ.last → ρ.OfOutcome R (x s) (x' s')

namespace Follows

variable {P Q : Prop} {R : α → α → Prop} {x x' : Check TypeError α}

theorem mono (h : ρ.Follows P R x x') (imp : Q → P) : ρ.Follows Q R x x' := ⟨h.growing, fun q => h.outcome (imp q)⟩

theorem pure {a a' : α} (h : P → R a a') : ρ.Follows P R (Pure.pure a) (Pure.pure a') :=
  ⟨Check.growing_pure a, fun p _ _ state _ => .ok (h p) state⟩

theorem fresh : ρ.Follows P ρ.OfTy Check.fresh Check.fresh := by
  refine ⟨Check.growing_fresh, fun _ s s' state le => ?_⟩
  obtain ⟨used, moved⟩ := ρ.ahead (s.supply + 1) (Nat.succ_pos _) le
  refine .ok ⟨?_, Ty.within_unknown.2 used⟩ ⟨state.subst, ?_⟩
  · rw [Ty.rename_unknown, moved, state.supply, Nat.add_right_comm]
  · simp only [state.supply, Nat.add_right_comm]

theorem zonk (h : P → ρ.OfTy t t') : ρ.Follows P ρ.OfTy (Check.zonk t) (Check.zonk t') :=
  ⟨Check.growing_zonk t, fun p _ _ state _ => .ok ((h p).apply state) state⟩

theorem unifyAt (span : Span) (h : P → ρ.OfTy t t') (h' : P → ρ.OfTy u u') :
    ρ.Follows P (fun _ _ => True) (Check.unifyAt span t u) (Check.unifyAt span t' u') := by
  refine ⟨Check.growing_unifyAt span t u, fun p s s' state _ => ?_⟩
  obtain ⟨rfl, left⟩ := h p
  obtain ⟨rfl, right⟩ := h' p
  have unified := state.subst.unify left right
  simp only [Check.unifyAt, EStateM.adaptExcept, Check.unify]
  generalize Subst.unify t u s.subst = r at unified ⊢
  generalize Subst.unify (t.rename ρ.map) (u.rename ρ.map) s'.subst = r' at unified ⊢
  cases unified with
  | ok subst => exact .ok trivial ⟨subst, state.supply⟩
  | error err within subst => exact .error (.unification err span) within ⟨subst, state.supply⟩

theorem bind {R' : β → β → Prop} {f f' : α → Check TypeError β} (h : ρ.Follows P R x x')
    (hf : ∀ a a', ρ.Follows (P ∧ R a a') R' (f a) (f' a')) : ρ.Follows P R' (x >>= f) (x' >>= f') := by
  refine ⟨h.growing.bind fun a => (hf a a).growing, fun p s s' state le => ?_⟩
  cases ran : x s with
  | ok a s₁ =>
    rw [Check.after, Check.bind_of_ok ran, ← Check.after] at le
    -- What follows hands out more unknowns, so the first part does not go past the last one either.
    have more := ((hf a a).growing s₁ (h.growing.ok state.subst.acyclic ran).acyclic).supply
    have first := h.outcome p s s' state (by rw [Check.after_of_ok ran]; omega)
    rw [ran] at first
    rw [Check.bind_of_ok ran]
    generalize ran' : x' s' = r' at first
    cases first with
    | ok value state₁ =>
      rw [Check.bind_of_ok ran']
      exact (hf _ _).outcome ⟨p, value⟩ _ _ state₁ le
  | error err s₁ =>
    rw [Check.after_of_error (Check.bind_of_error ran)] at le
    have first := h.outcome p s s' state (by rwa [Check.after_of_error ran])
    rw [ran] at first
    rw [Check.bind_of_error ran]
    generalize ran' : x' s' = r' at first
    cases first with
    | error _ within state₁ =>
      rw [Check.bind_of_error ran']
      exact .error err within state₁

end Follows

/-- Inference in renamed environments and states is the same up to renaming. -/
theorem infer_follows (e : Expr) (Γ Γ' : TypeEnv) :
    ρ.Follows (ρ.OfEnv Γ Γ') ρ.OfTy (Check.infer Γ e) (Check.infer Γ' e) := by
  induction e generalizing Γ Γ' with
  | int | bool | string => exact .pure fun _ => ⟨rfl, fun i hi => by cases hi⟩
  | var x =>
    refine ⟨Check.infer_growing _ _, fun env s s' state _ => ?_⟩
    have found := env x.name
    rw [Check.infer, Check.infer]
    generalize Γ.get? x.name = t at found ⊢
    generalize Γ'.get? x.name = t' at found ⊢
    cases found with
    | some same => exact .ok same state
    | none => exact .error _ trivial state
  | lam x body _ ih =>
    refine Follows.fresh.bind fun arg arg' => ?_
    refine ((ih _ _).mono fun h => h.1.insert h.2 x.name).bind fun res res' => ?_
    exact .pure fun h => h.1.2.fn h.2
  | app f a span ihf iha =>
    refine (ihf Γ Γ').bind fun fnTy fnTy' => ((iha Γ Γ').mono fun h => h.1).bind fun arg arg' => ?_
    refine Follows.fresh.bind fun res res' => ?_
    refine (Follows.unifyAt span (fun h => h.1.1.2) fun h => h.1.2.fn h.2).bind fun _ _ => ?_
    exact .pure fun h => h.1.2
  | letIn recursive x value body span ihv ihb =>
    cases recursive with
    | false =>
      refine (ihv Γ Γ').bind fun ty ty' => (Follows.zonk fun h => h.2).bind fun ty ty' => ?_
      exact (ihb _ _).mono fun h => h.1.1.insert h.2 x.name
    | true =>
      refine Follows.fresh.bind fun placeholder placeholder' => ?_
      refine ((ihv _ _).mono fun h => h.1.insert h.2 x.name).bind fun ty ty' => ?_
      refine (Follows.unifyAt span (fun h => h.1.2) fun h => h.2).bind fun _ _ => ?_
      refine (Follows.zonk fun h => h.1.1.2).bind fun ty ty' => ?_
      exact (ihb _ _).mono fun h => h.1.1.1.1.insert h.2 x.name
  | cond c t e span ihc iht ihe =>
    have bool : ρ.OfTy .bool .bool := ⟨rfl, fun i hi => by cases hi⟩
    refine (ihc Γ Γ').bind fun cTy cTy' => ?_
    refine (Follows.unifyAt c.span (fun h => h.2) fun _ => bool).bind fun _ _ => ?_
    refine ((iht Γ Γ').mono fun h => h.1.1).bind fun tTy tTy' => ?_
    refine ((ihe Γ Γ').mono fun h => h.1.1.1).bind fun eTy eTy' => ?_
    refine (Follows.unifyAt span (fun h => h.1.2) fun h => h.2).bind fun _ _ => ?_
    exact .zonk fun h => h.1.1.2

end FreshRenaming

/-! ## Results -/

/-- What a check returns, without the state. -/
def Check.outcome {ε α : Type} (x : Check ε α) (s : CheckState) : Except ε α :=
  match x s with
  | .ok a _ => .ok a
  | .error e _ => .error e

/-- Resolving a type does not change the state. -/
theorem Check.after_bind_zonk {ε : Type} (x : Check ε Ty) (s : CheckState) : (x >>= zonk).after s = x.after s := by
  cases ran : x s with
  | ok t s' => rw [after_of_ok ran, after, bind_of_ok ran, zonk]
  | error e s' => rw [after_of_error ran, after_of_error (bind_of_error ran)]

theorem Expr.infer_eq_outcome (Γ : TypeEnv) (e : Expr) : e.infer Γ = (Check.infer Γ e >>= Check.zonk).outcome {} := by
  rw [infer, Check.outcome]
  cases (Check.infer Γ e >>= Check.zonk) {} <;> rfl

/-- What inference returns, with other numbers for its unknowns. -/
def Expr.renameOutcome (g : Nat → Nat) : Except TypeError Ty → Except TypeError Ty
  | .ok t => .ok (t.rename g)
  | .error err => .error (err.rename g)

namespace FreshRenaming

variable {ρ : FreshRenaming} {α : Type} {P : Prop} {R : α → α → Prop} {s s' : CheckState}

theorem Follows.outcome_eq {x x' : Check TypeError Ty} (h : ρ.Follows P ρ.OfTy x x') (p : P) (state : ρ.OfState s s')
    (le : (x.after s).supply ≤ ρ.last) : x'.outcome s' = Expr.renameOutcome ρ.map (x.outcome s) := by
  have alike := h.outcome p s s' state le
  rw [Check.outcome, Check.outcome]
  generalize x s = r at alike ⊢
  generalize x' s' = r' at alike ⊢
  cases alike with
  | ok same =>
    rw [same.eq]
    rfl
  | error => rfl

theorem Follows.after {x x' : Check TypeError α} (h : ρ.Follows P R x x') (p : P) (state : ρ.OfState s s')
    (le : (x.after s).supply ≤ ρ.last) : ρ.OfState (x.after s) (x'.after s') := by
  have alike := h.outcome p s s' state le
  rw [Check.after, Check.after]
  generalize x s = r at alike ⊢
  generalize x' s' = r' at alike ⊢
  cases alike with
  | ok _ state => exact state
  | error _ _ state => exact state

/-- The same for inference with its type resolved. -/
theorem infer_zonk_follows (e : Expr) (Γ Γ' : TypeEnv) :
    ρ.Follows (ρ.OfEnv Γ Γ') ρ.OfTy (Check.infer Γ e >>= Check.zonk) (Check.infer Γ' e >>= Check.zonk) :=
  (infer_follows e Γ Γ').bind fun _ _ => .zonk fun h => h.2

end FreshRenaming

/-! ## Environments with unknowns -/

namespace TypeEnv

/-- Some type of the environment mentions the unknown. -/
def Mentions (Γ : TypeEnv) (i : Nat) : Prop := ∃ x t, Γ.get? x = some t ∧ t.mentions i = true

/-- The environment with other numbers for its unknowns. -/
def rename (g : Nat → Nat) (Γ : TypeEnv) : TypeEnv := Γ.map (Ty.rename g)

theorem get?_rename (g : Nat → Nat) (Γ : TypeEnv) (x : String) : (Γ.rename g).get? x = (Γ.get? x).map (Ty.rename g) :=
  NameMap.get?_map ..

theorem mentions_rename {g : Nat → Nat} {Γ : TypeEnv} {k : Nat} :
    (Γ.rename g).Mentions k ↔ ∃ i, Γ.Mentions i ∧ g i = k := by
  constructor
  · rintro ⟨x, t, found, mentions⟩
    rw [get?_rename] at found
    obtain ⟨u, bound, rfl⟩ := Option.map_eq_some_iff.1 found
    obtain ⟨i, hi, eq⟩ := Ty.mentions_subst.1 mentions
    exact ⟨i, ⟨x, u, bound, hi⟩, by simpa [Ty.mentions] using eq⟩
  · rintro ⟨i, ⟨x, t, found, hi⟩, rfl⟩
    refine ⟨x, t.rename g, by rw [get?_rename, found, Option.map_some], ?_⟩
    exact Ty.mentions_subst.2 ⟨i, hi, by simp [Ty.mentions]⟩

/-- Numbers that can be taken back. -/
theorem rename_rename_of_leftInverse {f g : Nat → Nat} (inv : Function.LeftInverse g f) (Γ : TypeEnv) :
    (Γ.rename f).rename g = Γ := by
  have same (t : Ty) : (t.rename f).rename g = t := by
    rw [Ty.rename, Ty.rename, Ty.subst_subst]
    exact Ty.subst_eq_self fun i _ => by simp [Ty.subst, inv i]
  obtain ⟨bindings⟩ := Γ
  simp [rename, NameMap.map, Function.comp_def, same]

theorem Mentions.mem_unknowns {Γ : TypeEnv} {i : Nat} (h : Γ.Mentions i) :
    i ∈ Γ.bindings.flatMap fun b => b.2.unknowns := by
  obtain ⟨x, t, found, mentions⟩ := h
  obtain ⟨front, back, split, -⟩ := List.lookup_eq_some_iff.1 found
  exact List.mem_flatMap.2 ⟨(x, t), by simp [split], Ty.mem_unknowns.2 mentions⟩

theorem finite_mentions (Γ : TypeEnv) : {i | Γ.Mentions i}.Finite := by
  refine (Γ.bindings.flatMap fun b => b.2.unknowns).finite_toSet.subset ?_
  intro i h
  exact h.mem_unknowns

end TypeEnv

namespace Expr

/-- How many unknowns inference hands out before it ends. They are `1` to this number. -/
def handedOut (Γ : TypeEnv) (e : Expr) : Nat := ((Check.infer Γ e).after {}).supply

/-- A renaming of the unknowns of an environment can be extended to one that leaves alone the unknowns handed out, when
the environment mentions none of these before and after. -/
theorem exists_perm {Γ : TypeEnv} {f : Nat → Nat} {n : Nat} (inj : Set.InjOn f {i | Γ.Mentions i})
    (apart : ∀ i, 0 < i → i ≤ n → ¬ Γ.Mentions i) (apart' : ∀ i, 0 < i → i ≤ n → ¬ (Γ.rename f).Mentions i) :
    ∃ g : Equiv.Perm Nat, (∀ i, 0 < i → i ≤ n → g i = i) ∧ ∀ i, Γ.Mentions i → g i = f i := by
  classical
  -- Elsewhere the extension may be anything: there are enough numbers left for a permutation.
  let used := {i | Γ.Mentions i} ∪ Set.Ioc 0 n
  let map (i : Nat) : Nat := if Γ.Mentions i then f i else i
  have finite : used.Finite := Γ.finite_mentions.union (Set.finite_Ioc 0 n)
  have renamed {i : Nat} (hi : Γ.Mentions i) : (Γ.rename f).Mentions (f i) :=
    TypeEnv.mentions_rename.2 ⟨i, hi, rfl⟩
  have injOn : Set.InjOn map used := by
    rintro i hi j hj eq
    by_cases mi : Γ.Mentions i <;> by_cases mj : Γ.Mentions j <;> simp only [map, mi, mj, if_true, if_false] at eq
    · exact inj mi mj eq
    · have := hj.resolve_left mj
      exact absurd (renamed mi) (eq ▸ apart' j this.1 this.2)
    · have := hi.resolve_left mi
      exact absurd (renamed mj) (eq ▸ apart' i this.1 this.2)
    · exact eq
  have few : Cardinal.mk used < Cardinal.mk Nat := by
    rw [Cardinal.mk_nat]
    exact Cardinal.lt_aleph0_iff_set_finite.2 finite
  obtain ⟨g, extends_map⟩ := Cardinal.extend_function_of_lt ⟨used.domRestrict map, injOn.injective⟩ few ⟨Equiv.refl _⟩
  refine ⟨g, fun i pos le => ?_, fun i hi => ?_⟩
  · exact (extends_map ⟨i, .inr ⟨pos, le⟩⟩).trans (if_neg (apart i pos le))
  · exact (extends_map ⟨i, .inl hi⟩).trans (if_pos hi)

/-- If the environment mentions no unknown that is handed out, before and after renaming, inference is the same up to
renaming. -/
theorem infer_rename {Γ : TypeEnv} {f : Nat → Nat} {e : Expr} (inj : Set.InjOn f {i | Γ.Mentions i})
    (apart : ∀ i, 0 < i → i ≤ e.handedOut Γ → ¬ Γ.Mentions i)
    (apart' : ∀ i, 0 < i → i ≤ e.handedOut Γ → ¬ (Γ.rename f).Mentions i) :
    e.handedOut (Γ.rename f) = e.handedOut Γ ∧
    ∃ g : Equiv.Perm Nat, (∀ i, 0 < i → i ≤ e.handedOut Γ → g i = i) ∧ (∀ i, Γ.Mentions i → g i = f i) ∧
      e.infer (Γ.rename f) = renameOutcome g (e.infer Γ) := by
  obtain ⟨g, fixed, same⟩ := exists_perm inj apart apart'
  let ρ : FreshRenaming :=
    { map := g, used := Set.univ, injOn := g.injective.injOn, others := .empty, shift := 0, last := e.handedOut Γ,
      ahead := fun i pos le => ⟨trivial, fixed i pos le⟩ }
  have start : ρ.OfState {} {} :=
    ⟨⟨Subst.acyclic_empty, Subst.acyclic_empty, fun _ _ => rfl, fun _ _ _ _ _ _ => trivial, fun _ _ => rfl⟩, rfl⟩
  have env : ρ.OfEnv Γ (Γ.rename f) := by
    intro x
    rw [TypeEnv.get?_rename]
    cases found : Γ.get? x with
    | none => exact .none
    | some t =>
      refine .some ⟨Ty.subst_congr fun i hi => ?_, fun _ _ => trivial⟩
      rw [← same i ⟨x, t, found, hi⟩]
  have ends := (FreshRenaming.infer_follows e Γ (Γ.rename f)).after env start le_rfl
  refine ⟨ends.supply, g, fixed, same, ?_⟩
  rw [infer_eq_outcome, infer_eq_outcome]
  refine (FreshRenaming.infer_zonk_follows e Γ (Γ.rename f)).outcome_eq env start ?_
  rw [Check.after_bind_zonk]
  exact le_rfl

/-- **Inference up to renaming.** Take an environment and an injective renaming of its unknowns. If neither the
environment nor the renamed one mentions an unknown that inference hands out in it, then inference succeeds in both or
fails in both, with the same type or error up to a renaming of unknowns. -/
theorem infer_rename_injective (Γ : TypeEnv) (e : Expr) {f : Nat → Nat} (inj : Function.Injective f)
    (apart : ∀ i, 0 < i → i ≤ e.handedOut Γ → ¬ Γ.Mentions i)
    (apart' : ∀ i, 0 < i → i ≤ e.handedOut (Γ.rename f) → ¬ (Γ.rename f).Mentions i) :
    ∃ g : Equiv.Perm Nat, (∀ i, 0 < i → i ≤ e.handedOut Γ → g i = i) ∧ (∀ i, Γ.Mentions i → g i = f i) ∧
      e.infer (Γ.rename f) = renameOutcome g (e.infer Γ) := by
  have le : e.handedOut Γ ≤ e.handedOut (Γ.rename f) := by
    by_contra less
    -- Otherwise go back from the renamed environment: that run hands out as many unknowns.
    have inv := Function.leftInverse_invFun inj
    have back := TypeEnv.rename_rename_of_leftInverse inv Γ
    have injOn : Set.InjOn (Function.invFun f) {i | (Γ.rename f).Mentions i} := by
      rintro i hi j hj eq
      obtain ⟨i, -, rfl⟩ := TypeEnv.mentions_rename.1 hi
      obtain ⟨j, -, rfl⟩ := TypeEnv.mentions_rename.1 hj
      rw [inv, inv] at eq
      rw [eq]
    have alike := (infer_rename injOn apart' fun i pos le => by rw [back]; exact apart i pos (by omega)).1
    rw [back] at alike
    omega
  exact (infer_rename inj.injOn apart fun i pos le' => apart' i pos (le'.trans le)).2

/-- A function `y` from one unknown to another, and an argument `x` of the type of its results. -/
def twoUnknowns : TypeEnv := ⟨[("x", .unknown 7), ("y", .fn (.unknown 9) (.unknown 7))]⟩

/-- What `y` makes of the value of a function at `x`. -/
def throughBoth : Expr := .lam ⟨"z", {}⟩ (.app (.var ⟨"y", {}⟩) (.app (.var ⟨"z", {}⟩) (.var ⟨"x", {}⟩) {}) {}) {}

/-- Both unknowns of the environment are solved by some that are handed out, and so are the renamed ones. -/
theorem infer_rename_injective_throughBoth :
    throughBoth.infer twoUnknowns = .ok (.fn (.fn (.unknown 3) (.unknown 2)) (.unknown 3)) ∧
    ∃ g : Equiv.Perm Nat, (∀ i, 0 < i → i ≤ 3 → g i = i) ∧ (g 7 = 10 ∧ g 9 = 12) ∧
      throughBoth.infer (twoUnknowns.rename (· + 3)) = renameOutcome g (throughBoth.infer twoUnknowns) := by
  have three : throughBoth.handedOut twoUnknowns = 3 := by cbv
  have three' : throughBoth.handedOut (twoUnknowns.rename (· + 3)) = 3 := by cbv
  have known {i : Nat} (mentioned : twoUnknowns.Mentions i) : i = 7 ∨ i = 9 := by
    have mem : i = 7 ∨ i = 9 ∨ i = 7 := by
      simpa [twoUnknowns, Ty.unknowns, Ascending.union] using mentioned.mem_unknowns
    omega
  have apart (i : Nat) (_ : 0 < i) (le : i ≤ throughBoth.handedOut twoUnknowns) : ¬ twoUnknowns.Mentions i := by
    intro mentioned
    have := known mentioned
    omega
  have apart' (i : Nat) (_ : 0 < i) (le : i ≤ throughBoth.handedOut (twoUnknowns.rename (· + 3))) :
      ¬ (twoUnknowns.rename (· + 3)).Mentions i := by
    intro mentioned
    obtain ⟨j, before, rfl⟩ := TypeEnv.mentions_rename.1 mentioned
    have := known before
    omega
  have inj : Function.Injective fun i : Nat => i + 3 := by
    intro i j eq
    simpa using eq
  obtain ⟨g, fixed, same, eq⟩ := infer_rename_injective twoUnknowns throughBoth inj apart apart'
  rw [three] at fixed
  exact ⟨by cbv, g, fixed, ⟨same 7 ⟨"x", _, rfl, rfl⟩, same 9 ⟨"y", _, rfl, rfl⟩⟩, eq⟩

/-- `(\y -> let r = y x in 1) (\z -> z)` applies a function to `x` and returns one. -/
def appliedOnce : Expr :=
  .app (.lam ⟨"y", {}⟩ (.letIn false ⟨"r", {}⟩ (.app (.var ⟨"y", {}⟩) (.var ⟨"x", {}⟩) {}) (.int 1 {}) {}) {})
    (.lam ⟨"z", {}⟩ (.var ⟨"z", {}⟩) {}) {}

/-- The first unknown handed out may be one that the environment mentions already. With `x : u1` the function and its
argument share their unknown, and there is no type; with `x : u5` there is one. -/
theorem infer_captures :
    Function.Injective (fun i : Nat => i + 4) ∧
    appliedOnce.infer ⟨[("x", .unknown 1)]⟩ =
      .error (.unification (.occurs 1 (.fn (.unknown 1) (.unknown 2))) {}) ∧
    appliedOnce.infer (TypeEnv.rename (fun i => i + 4) ⟨[("x", .unknown 1)]⟩) = .ok .int := by
  refine ⟨fun i j eq => ?_, by cbv, by cbv⟩
  simpa using eq

end Expr

end Monolet
