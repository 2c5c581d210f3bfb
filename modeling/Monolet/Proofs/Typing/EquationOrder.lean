import Mathlib
import Monolet.Proofs.Subst.Renaming
import Monolet.Proofs.Typing.Derivation

/-!
# The order of equations

When equations are unified one after the other, their order and the order of their sides decide which unknowns get
entries, and which ones. They do not decide what the entries ask for: just the assignments that satisfy the entries
from before and all equations (`Check.unifyAll_ok`). Two substitutions that ask for the same resolve every type to the
same type up to a permutation of the unknowns (`Subst.exists_renaming`): an unknown that one leaves unsolved resolves by
the other to an unknown again, since resolving that by the first must give the unknown back.
-/

namespace Monolet

/-! ## Rearranged equations -/

namespace Equation

variable {e e' : Equation} {eqs eqs' : List Equation} {θ : Nat → Ty}

/-- The same equation, its sides perhaps exchanged. -/
def Turned (e e' : Equation) : Prop := e' = e ∨ e' = e.swap

/-- The same equations in another order, the sides of any of them exchanged. -/
def Rearranged (eqs eqs' : List Equation) : Prop := ∃ reordered, eqs.Perm reordered ∧ List.Forall₂ Turned reordered eqs'

theorem Turned.holds_iff (h : e.Turned e') : e'.Holds θ ↔ e.Holds θ := by
  rcases h with rfl | rfl
  · rfl
  · exact eq_comm

theorem Rearranged.holds_iff (h : Rearranged eqs eqs') : (∀ e ∈ eqs', e.Holds θ) ↔ ∀ e ∈ eqs, e.Holds θ := by
  obtain ⟨reordered, perm, turned⟩ := h
  have exchanged : (∀ e ∈ eqs', e.Holds θ) ↔ ∀ e ∈ reordered, e.Holds θ := by
    clear perm
    induction turned with
    | nil => rfl
    | cons first _ ih => rw [List.forall_mem_cons, List.forall_mem_cons, first.holds_iff, ih]
  simp only [exchanged, perm.mem_iff]

end Equation

/-! ## Unifying a list -/

namespace Check

variable {s s' : CheckState} {eqs : List Equation} {θ : Nat → Ty}

/-- Unify both sides of every equation, one equation after the other. -/
def unifyAll : List Equation → Check UnifyError Unit
  | [] => return
  | e :: eqs => do
    unify e.1 e.2
    unifyAll eqs

/-- The entries after a list of equations are satisfied by what satisfies those before and all the equations. -/
theorem unifyAll_ok (acyclic : s.subst.Acyclic) (ok : unifyAll eqs s = .ok () s') :
    s'.subst.Acyclic ∧
      ∀ θ, Subst.Satisfies θ s'.subst ↔ Subst.Satisfies θ s.subst ∧ ∀ e ∈ eqs, e.Holds θ := by
  induction eqs generalizing s with
  | nil =>
    obtain ⟨-, rfl⟩ := pure_eq_ok.1 ok
    exact ⟨acyclic, fun θ => by simp⟩
  | cons e eqs ih =>
    obtain ⟨_, s₁, first, rest⟩ := bind_eq_ok.1 ok
    obtain ⟨σ₁, unified, rfl⟩ := unify_eq_ok.1 first
    obtain ⟨acyclic₁, solutions₁⟩ := Subst.unify_ok acyclic unified
    obtain ⟨acyclic', solutions'⟩ := ih acyclic₁ rest
    refine ⟨acyclic', fun θ => ?_⟩
    rw [solutions', solutions₁, List.forall_mem_cons, and_assoc]
    rfl

theorem unifyAll_succeeds (acyclic : s.subst.Acyclic) (sat : Subst.Satisfies θ s.subst)
    (holds : ∀ e ∈ eqs, e.Holds θ) : ∃ s', unifyAll eqs s = .ok () s' := by
  induction eqs generalizing s with
  | nil => exact ⟨s, rfl⟩
  | cons e eqs ih =>
    obtain ⟨first, others⟩ := List.forall_mem_cons.1 holds
    obtain ⟨σ₁, unified, sat₁⟩ := Subst.unify_succeeds acyclic sat first
    have acyclic₁ := (Subst.unify_ok acyclic unified).1
    obtain ⟨s', rest⟩ := ih (s := { s with subst := σ₁ }) acyclic₁ sat₁ others
    exact ⟨s', bind_eq_ok.2 ⟨(), _, unify_eq_ok.2 ⟨σ₁, unified, rfl⟩, rest⟩⟩

/-- A list of equations can be unified exactly when one assignment satisfies the entries and all the equations. -/
theorem exists_unifyAll_iff (acyclic : s.subst.Acyclic) :
    (∃ s', unifyAll eqs s = .ok () s') ↔ ∃ θ, Subst.Satisfies θ s.subst ∧ ∀ e ∈ eqs, e.Holds θ := by
  constructor
  · rintro ⟨s', ok⟩
    obtain ⟨acyclic', solutions⟩ := unifyAll_ok acyclic ok
    exact ⟨_, (solutions _).1 (acyclic'.satisfies .unknown)⟩
  · rintro ⟨θ, sat, holds⟩
    exact unifyAll_succeeds acyclic sat holds

end Check

/-! ## Substitutions that ask for the same -/

/-- A map that is injective on some numbers, and keeps those of them that are in a finite set within the set, extends to
a permutation that moves nothing outside of the set. -/
theorem exists_perm_extending {f : Nat → Nat} {part : Set Nat} (finite : Finset Nat) (inj : Set.InjOn f part)
    (inside : ∀ i ∈ part, i ∈ finite → f i ∈ finite) :
    ∃ π : Equiv.Perm Nat, (∀ i ∈ part, i ∈ finite → π i = f i) ∧ ∀ i, i ∉ finite → π i = i := by
  classical
  let within : Finset finite := {i | ↑i ∈ part}
  have mem {i : finite} (hi : i ∈ within) : ↑i ∈ part := (Finset.mem_filter.1 hi).2
  have image : within.image (fun i : finite => f i) ⊆ finite := by
    intro k hk
    obtain ⟨i, hi, rfl⟩ := Finset.mem_image.1 hk
    exact inside i (mem hi) i.2
  have injOn : Set.InjOn (fun i : finite => f i) within := by
    intro i hi j hj eq
    exact Subtype.ext (inj (mem hi) (mem hj) eq)
  obtain ⟨g, same⟩ := Finset.exists_equiv_extend_of_card_eq (Fintype.card_coe finite) image injOn
  refine ⟨Equiv.Perm.ofSubtype g, fun i hi listed => ?_, fun i out => ?_⟩
  · rw [Equiv.Perm.ofSubtype_apply_of_mem g listed]
    exact same ⟨i, listed⟩ (Finset.mem_filter.2 ⟨Finset.mem_univ _, hi⟩)
  · exact Equiv.Perm.ofSubtype_apply_of_not_mem g out

namespace Subst

variable {σ σ' : Subst} {i j k : Nat}

/-- Two unknowns of which the second is what the first one resolves to by `σ'`, and the first what the second one
resolves to by `σ`. -/
structure Counterpart (σ σ' : Subst) (i j : Nat) : Prop where
  forth : σ'.apply (.unknown i) = .unknown j
  back : σ.apply (.unknown j) = .unknown i

theorem Counterpart.inj (h : Counterpart σ σ' i k) (h' : Counterpart σ σ' j k) : i = j :=
  Ty.unknown.inj (h.back.symm.trans h'.back)

theorem Counterpart.eq_self (h : Counterpart σ σ' i j) (free : σ'.get? i = none) : j = i :=
  Ty.unknown.inj (h.forth.symm.trans (apply_free free))

/-- If both ask for the same, every unknown that `σ` leaves unsolved has a counterpart. -/
theorem exists_counterpart (h : σ.Acyclic) (same : ∀ θ, Satisfies θ σ ↔ Satisfies θ σ') (free : σ.get? i = none) :
    ∃ j, Counterpart σ σ' i j := by
  have back : σ.apply (σ'.apply (.unknown i)) = .unknown i := by
    rw [h.apply_apply_of_satisfies fun θ => (same θ).1, apply_free free]
  -- nothing but an unknown resolves to an unknown
  cases found : σ'.apply (.unknown i) with
  | unknown j =>
    rw [found] at back
    exact ⟨j, found, back⟩
  | _ =>
    rw [found] at back
    cases back

/-- Resolving again renames a resolved type if it gives each unsolved unknown a new number. -/
theorem rename_apply {g : Nat → Nat} (h : σ.Acyclic)
    (renames : ∀ i, σ.get? i = none → σ'.apply (.unknown i) = .unknown (g i)) (t : Ty) :
    (σ.apply t).rename g = σ'.apply (σ.apply t) := by
  rw [Ty.rename, apply_eq_subst σ']
  exact Ty.subst_congr fun i hi => (renames i (get?_of_mentions_apply h hi)).symm

/-- Two substitutions that ask for the same resolve types alike, up to a permutation of the unknowns. It moves only
unknowns that have an entry in one of them. -/
theorem exists_renaming (h : σ.Acyclic) (h' : σ'.Acyclic) (same : ∀ θ, Satisfies θ σ ↔ Satisfies θ σ') :
    ∃ π : Equiv.Perm Nat, (∀ i, σ.get? i = none → σ'.get? i = none → π i = i) ∧
      ∀ t, (σ.apply t).rename π = σ'.apply t := by
  have counterparts (i : Nat) (free : σ.get? i = none) := exists_counterpart h same free
  choose! f counterpart using counterparts
  have inj : Set.InjOn f {i | σ.get? i = none} := by
    intro i free j free' eq
    have first := counterpart i free
    rw [eq] at first
    exact first.inj (counterpart j free')
  have unsolved {i : Nat} (out : i ∉ σ.keys ∪ σ'.keys) : σ.get? i = none ∧ σ'.get? i = none := by
    rw [Finset.mem_union, not_or] at out
    exact ⟨get?_of_not_mem_keys out.1, get?_of_not_mem_keys out.2⟩
  have stays {i : Nat} (out : i ∉ σ.keys ∪ σ'.keys) : f i = i :=
    (counterpart i (unsolved out).1).eq_self (unsolved out).2
  -- an unknown without any entry is its own counterpart, and so it is not that of another one
  have inside : ∀ i ∈ {i | σ.get? i = none}, i ∈ σ.keys ∪ σ'.keys → f i ∈ σ.keys ∪ σ'.keys := by
    intro i free mem
    by_contra out
    have fixed : f i = i := inj (unsolved out).1 free (stays out)
    rw [fixed] at out
    exact out mem
  obtain ⟨π, extending, fixing⟩ := exists_perm_extending _ inj inside
  have agrees {i : Nat} (free : σ.get? i = none) : π i = f i := by
    by_cases mem : i ∈ σ.keys ∪ σ'.keys
    · exact extending i free mem
    · rw [fixing i mem, stays mem]
  refine ⟨π, fun i free free' => ?_, fun t => ?_⟩
  · rw [agrees free, (counterpart i free).eq_self free']
  · rw [rename_apply h fun i free => by rw [agrees free, (counterpart i free).forth]]
    exact h'.apply_apply_of_satisfies (fun θ => (same θ).2) t

end Subst

/-- **Order does not matter.** Take a state without cycles and a list of equations, and rearrange the list. Unifying one
list succeeds exactly when unifying the other does. Then there is one permutation of the unknowns that makes what any
type resolves to after the first list into what it resolves to after the second; it moves only unknowns that have been
solved in one of the two ways. -/
theorem Check.unifyAll_rearranged (s : CheckState) (acyclic : s.subst.Acyclic) (eqs eqs' : List Equation)
    (rearranged : Equation.Rearranged eqs eqs') :
    ((∃ s₁, unifyAll eqs s = .ok () s₁) ↔ ∃ s₂, unifyAll eqs' s = .ok () s₂) ∧
      ∀ s₁ s₂, unifyAll eqs s = .ok () s₁ → unifyAll eqs' s = .ok () s₂ →
        ∃ π : Equiv.Perm Nat, (∀ i, s₁.subst.get? i = none → s₂.subst.get? i = none → π i = i) ∧
          ∀ t, (s₁.subst.apply t).rename π = s₂.subst.apply t := by
  constructor
  · simp only [exists_unifyAll_iff acyclic, rearranged.holds_iff]
  · intro s₁ s₂ ok₁ ok₂
    obtain ⟨acyclic₁, solutions₁⟩ := unifyAll_ok acyclic ok₁
    obtain ⟨acyclic₂, solutions₂⟩ := unifyAll_ok acyclic ok₂
    refine Subst.exists_renaming acyclic₁ acyclic₂ fun θ => ?_
    rw [solutions₁, solutions₂, rearranged.holds_iff]

/-- The equations `u3 = u6` and `u1 = u5 -> Int`. -/
def Equation.inOrder : List Equation := [(.unknown 3, .unknown 6), (.unknown 1, .fn (.unknown 5) .int)]

/-- These in the other order, the sides of the second exchanged. -/
def Equation.outOfOrder : List Equation := [(.fn (.unknown 5) .int, .unknown 1), (.unknown 3, .unknown 6)]

/-- After `u1 ↦ u2 -> u3` and `u2 ↦ u4`, one order makes `u1` into `u5 -> Int` and the other one into `u4 -> Int`. -/
theorem Check.unifyAll_rearranged_chained :
    Subst.chained.Acyclic ∧ Equation.Rearranged Equation.inOrder Equation.outOfOrder ∧
      ∃ s₁ s₂, unifyAll Equation.inOrder ⟨.chained, 6⟩ = .ok () s₁ ∧
        unifyAll Equation.outOfOrder ⟨.chained, 6⟩ = .ok () s₂ ∧
        s₁.subst.apply (.unknown 1) = .fn (.unknown 5) .int ∧ s₂.subst.apply (.unknown 1) = .fn (.unknown 4) .int ∧
        ∃ π : Equiv.Perm Nat, π 5 = 4 ∧ ∀ t, (s₁.subst.apply t).rename π = s₂.subst.apply t := by
  have rearranged : Equation.Rearranged Equation.inOrder Equation.outOfOrder := by
    refine ⟨Equation.inOrder.reverse, (List.reverse_perm _).symm, ?_⟩
    exact .cons (.inr rfl) (.cons (.inl rfl) .nil)
  have ok₁ : unifyAll Equation.inOrder ⟨.chained, 6⟩ =
      .ok () ⟨((Subst.chained.set 3 (.unknown 6)).set 4 (.unknown 5)).set 6 .int, 6⟩ := by cbv
  have ok₂ : unifyAll Equation.outOfOrder ⟨.chained, 6⟩ =
      .ok () ⟨((Subst.chained.set 5 (.unknown 4)).set 3 .int).set 6 .int, 6⟩ := by cbv
  obtain ⟨π, -, same⟩ := (unifyAll_rearranged ⟨.chained, 6⟩ Subst.acyclic_chained _ _ rearranged).2 _ _ ok₁ ok₂
  have five : Ty.fn (.unknown (π 5)) .int = .fn (.unknown 4) .int := same (.unknown 1)
  refine ⟨Subst.acyclic_chained, rearranged, _, _, ok₁, ok₂, rfl, rfl, π, ?_, same⟩
  exact Ty.unknown.inj (Ty.fn.inj five).1

end Monolet
