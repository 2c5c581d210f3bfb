import Monolet.Proofs.Typing.Renaming

/-!
# Only unknowns that were handed out

A check state hands out the unknowns 1, 2, … in order, so after `n` of them a type is `Issued n` when its unknowns lie
between 1 and `n`. If the environment and the entries of a state are issued, then so are the entries that unification
and inference leave behind, also when they fail (`Check.unify_issued`, `Check.infer_issued`), and the type that inference
returns (`Infers.issued`) or the error (`Check.infer_error_issued`): the next unknown of the supply is new to everything
seen so far. This is inference without any renaming, compared with itself: a renaming keeps to the unknowns in use.
-/

namespace Monolet

variable {n m : Nat}

namespace Ty

variable {t u : Ty} {θ θ' : Nat → Ty}

/-- All unknowns of the type are among the first `n` handed out. -/
def Issued (n : Nat) (t : Ty) : Prop := ∀ id, t.mentions id = true → 0 < id ∧ id ≤ n

theorem Issued.mono (h : t.Issued n) (le : n ≤ m) : t.Issued m := by
  intro id hid
  have := h id hid
  omega

theorem issued_unknown {id : Nat} (pos : 0 < id) (le : id ≤ n) : (unknown id).Issued n := by
  intro k hk
  have : id = k := by simpa [mentions] using hk
  omega

theorem issued_bool : bool.Issued n := by
  intro id hid
  cases hid

theorem Issued.fn (ht : t.Issued n) (hu : u.Issued n) : (fn t u).Issued n := by
  intro id hid
  rcases Bool.or_eq_true_iff.1 hid with h | h
  · exact ht id h
  · exact hu id h

theorem Issued.subst (h : t.Issued n) (hθ : ∀ i, 0 < i → i ≤ n → (θ i).Issued m) : (t.subst θ).Issued m := by
  intro id hid
  obtain ⟨i, hi, hid⟩ := mentions_subst.1 hid
  obtain ⟨pos, le⟩ := h i hi
  exact hθ i pos le id hid

/-- Assignments that agree on the unknowns handed out do the same to an issued type. -/
theorem Issued.subst_congr (h : t.Issued n) (agree : ∀ i ≤ n, θ i = θ' i) : t.subst θ = t.subst θ' :=
  Ty.subst_congr fun i hi => agree i (h i hi).2

end Ty

namespace TypeEnv

variable {Γ : TypeEnv}

/-- All unknowns of the environment are among the first `n` handed out. -/
def Issued (n : Nat) (Γ : TypeEnv) : Prop := ∀ x t, Γ.get? x = some t → t.Issued n

theorem Issued.mono (h : Γ.Issued n) (le : n ≤ m) : Γ.Issued m :=
  fun x t ht => (h x t ht).mono le

theorem Issued.insert {x : String} {t : Ty} (h : Γ.Issued n) (ht : t.Issued n) :
    TypeEnv.Issued n (Γ.insert x t) := by
  intro y u hu
  rw [NameMap.get?_insert] at hu
  split at hu
  · cases hu
    exact ht
  · exact h y u hu

end TypeEnv

namespace Subst

variable {σ : Subst} {t : Ty}

/-- All unknowns with entries and all unknowns in entries are among the first `n` handed out. -/
def Issued (n : Nat) (σ : Subst) : Prop := ∀ i t, σ.get? i = some t → (0 < i ∧ i ≤ n) ∧ t.Issued n

theorem issued_empty : Issued n empty := by
  intro i t ht
  rw [get?_empty] at ht
  cases ht

theorem Issued.mono (h : σ.Issued n) (le : n ≤ m) : σ.Issued m := by
  intro i t ht
  obtain ⟨⟨pos, le'⟩, issued⟩ := h i t ht
  exact ⟨⟨pos, Nat.le_trans le' le⟩, issued.mono le⟩

theorem Issued.follow (h : σ.Issued n) (k : Nat) {i : Nat} (pos : 0 < i) (le : i ≤ n) :
    (σ.follow k i).Issued n := by
  induction k generalizing i with
  | zero => exact Ty.issued_unknown pos le
  | succ k ih =>
    rw [Subst.follow]
    cases ht : σ.get? i with
    | none => exact Ty.issued_unknown pos le
    | some t => exact (h i t ht).2.subst fun j pos' le' => ih pos' le'

theorem Issued.apply (h : σ.Issued n) (ht : t.Issued n) : (σ.apply t).Issued n :=
  ht.subst fun _ pos le => h.follow σ.size pos le

end Subst

/-- All unknowns of the error are among the first `n` handed out. -/
def TypeError.Issued (n : Nat) (err : TypeError) : Prop := err.Within {i | 0 < i ∧ i ≤ n}

/-! ## States -/

/-- The entries of the state have no cycle and are issued by its supply. -/
structure CheckState.Issued (s : CheckState) : Prop where
  acyclic : s.subst.Acyclic
  entries : s.subst.Issued s.supply

theorem CheckState.issued_empty : CheckState.Issued {} := ⟨Subst.acyclic_empty, Subst.issued_empty⟩

/-- One more unknown is handed out. -/
theorem CheckState.Issued.next {s : CheckState} (h : s.Issued) :
    CheckState.Issued { s with supply := s.supply + 1 } :=
  ⟨h.acyclic, h.entries.mono (Nat.le_succ _)⟩

/-- The unknown handed out last is issued. -/
theorem CheckState.Issued.newest (s : CheckState) : (Ty.unknown (s.supply + 1)).Issued (s.supply + 1) :=
  Ty.issued_unknown (Nat.succ_pos _) (Nat.le_refl _)

/-! ## Nothing renamed -/

namespace FreshRenaming

/-- All unknowns up to the last one, under their own numbers. -/
def unchanged (last : Nat) : FreshRenaming where
  map := id
  used := {i | 0 < i ∧ i ≤ last}
  injOn := Function.injective_id.injOn
  others := .empty
  shift := 0
  last := last
  ahead := fun _ pos le => ⟨⟨pos, le⟩, rfl⟩

variable {last : Nat} {s : CheckState} {t : Ty}

theorem ofTy_unchanged (h : t.Issued last) : (unchanged last).OfTy t t :=
  ⟨(Ty.subst_unknown t).symm, h⟩

theorem ofEnv_unchanged {Γ : TypeEnv} (h : Γ.Issued last) : (unchanged last).OfEnv Γ Γ := by
  intro x
  cases found : Γ.get? x with
  | none => exact .none
  | some t => exact .some (ofTy_unchanged (h x t found))

theorem ofState_unchanged (h : s.Issued) (le : s.supply ≤ last) : (unchanged last).OfState s s := by
  have entries := h.entries.mono le
  refine ⟨⟨h.acyclic, h.acyclic, fun i _ => ?_, fun i _ t ht => (entries i t ht).2, fun j outside => ?_⟩, rfl⟩
  · cases found : s.subst.get? i with
    | none => exact found
    | some t => exact found.trans (congrArg some (Ty.subst_unknown t).symm)
  · cases found : s.subst.get? j with
    | none => rfl
    | some t => exact absurd rfl (outside j (entries j t found).1)

theorem issued_of_unchanged (h : (unchanged s.supply).OfState s s) : s.Issued := by
  refine ⟨h.subst.acyclic, fun i t found => ?_⟩
  by_cases used : 0 < i ∧ i ≤ s.supply
  · exact ⟨used, h.subst.within i used t found⟩
  · have absent := h.subst.others i fun j hj eq => used (eq ▸ hj)
    rw [found] at absent
    cases absent

/-- A check that does not depend on the numbers of unknowns leaves entries that are issued. -/
theorem Follows.issued {α : Type} {P : Nat → Prop} {R : FreshRenaming → α → α → Prop} {x : Check TypeError α}
    (h : ∀ last, (unchanged last).Follows (P last) (R (unchanged last)) x x) (hs : s.Issued)
    (holds : ∀ last, s.supply ≤ last → P last) : (x.after s).Issued := by
  have le := ((h 0).growing s hs.acyclic).supply
  exact issued_of_unchanged ((h _).after (holds _ le) (ofState_unchanged hs le) le_rfl)

end FreshRenaming

namespace Check

variable {s : CheckState}

theorem after_unifyAt (span : Span) (l r : Ty) (s : CheckState) : (unifyAt span l r).after s = (unify l r).after s := by
  rw [after, after, unifyAt, EStateM.adaptExcept]
  cases unify l r s <;> rfl

theorem unify_issued {l r : Ty} (hs : s.Issued) (hl : l.Issued s.supply) (hr : r.Issued s.supply) :
    ((unify l r).after s).Issued := by
  rw [← after_unifyAt {}]
  refine FreshRenaming.Follows.issued (P := fun last => s.supply ≤ last) (R := fun _ _ _ => True) (fun last => ?_) hs
    fun _ le => le
  exact .unifyAt {} (fun le => FreshRenaming.ofTy_unchanged (hl.mono le))
    fun le => FreshRenaming.ofTy_unchanged (hr.mono le)

theorem infer_issued {Γ : TypeEnv} (hs : s.Issued) (hΓ : Γ.Issued s.supply) (e : Expr) :
    ((infer Γ e).after s).Issued := by
  refine FreshRenaming.Follows.issued (R := FreshRenaming.OfTy) (fun _ => FreshRenaming.infer_follows e Γ Γ) hs ?_
  exact fun _ le => FreshRenaming.ofEnv_unchanged (hΓ.mono le)

/-- The error of a failed inference is about unknowns that it or its caller handed out. -/
theorem infer_error_issued {Γ : TypeEnv} {e : Expr} {err : TypeError} {s' : CheckState}
    (ran : infer Γ e s = .error err s') (hs : s.Issued) (hΓ : Γ.Issued s.supply) : err.Issued s'.supply := by
  have le := (infer_growing e Γ s hs.acyclic).supply
  rw [after_of_error ran] at le
  have alike := (FreshRenaming.infer_follows e Γ Γ).outcome (FreshRenaming.ofEnv_unchanged (hΓ.mono le)) s s
    (FreshRenaming.ofState_unchanged hs le) (after_of_error ran ▸ le_rfl)
  rw [ran] at alike
  exact alike.error_within

end Check

theorem CheckState.Issued.unify {s : CheckState} {l r : Ty} {σ : Subst} (h : s.Issued) (hl : l.Issued s.supply)
    (hr : r.Issued s.supply) (ok : Subst.unify l r s.subst = .ok () σ) :
    CheckState.Issued { s with subst := σ } := by
  have ran : Check.unify l r s = .ok () { s with subst := σ } := Check.unify_eq_ok.2 ⟨σ, ok, rfl⟩
  have issued := Check.unify_issued h hl hr
  rwa [Check.after_of_ok ran] at issued

/-- Inference leaves behind only unknowns that it or its caller handed out. -/
theorem Infers.issued {Γ : TypeEnv} {e : Expr} {s s' : CheckState} {t : Ty} (h : Infers Γ e s t s')
    (hs : s.Issued) (hΓ : Γ.Issued s.supply) : s'.Issued ∧ t.Issued s'.supply := by
  have ran := Check.infer_of_infers h
  have le := (h.grows hs.acyclic).supply
  have alike := (FreshRenaming.infer_follows e Γ Γ).outcome (FreshRenaming.ofEnv_unchanged (hΓ.mono le)) s s
    (FreshRenaming.ofState_unchanged hs le) (Check.after_of_ok ran ▸ le_rfl)
  rw [ran] at alike
  cases alike with
  | ok type state => exact ⟨FreshRenaming.issued_of_unchanged state, type.within⟩

end Monolet
