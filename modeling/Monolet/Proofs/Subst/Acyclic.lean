import Mathlib.Data.Finset.Card
import Mathlib.Data.Finset.Dedup
import Mathlib.Logic.Relation
import Monolet.Proofs.Ty.Assignment
import Monolet.Subst.Basic

/-!
# Substitutions without cycles

The entries of a substitution form a graph: there is an edge from `i` to `j` when `j` occurs in the entry of `i`.
Without cycles, every edge leaves fewer entries ahead (`card_ahead_lt`), so following as many entries in a
row as there are reaches the ends of all chains. From then on `apply` is known by one equation, `apply_entry`: an
unknown with an entry resolves to what its entry resolves to. All other facts are inductions along the
edges (`Acyclic.wellFounded`) over this equation.

`mentions_apply` says which unknowns a resolved type has: the ends of the chains that start in the type.
`acyclic_set` says when a new entry closes no cycle.
-/

namespace Monolet.Subst

open Relation

variable {σ : Subst} {i j k id : Nat} {t ty : Ty}

/-! ## Look-up -/

theorem lookup_entry (i k : Nat) (t : Ty) (l : List (Nat × Ty)) :
    ((k, t) :: l).lookup i = if i = k then some t else l.lookup i := by
  rw [List.lookup_cons]
  split <;> simp_all

theorem lookup_setEntry (id i : Nat) (ty : Ty) (l : List (Nat × Ty)) :
    (setEntry id ty l).lookup i = if i = id then some ty else l.lookup i := by
  induction l with
  | nil => rw [setEntry, lookup_entry]
  | cons e l ih =>
    obtain ⟨k, s⟩ := e
    rw [setEntry]
    split
    · rw [lookup_entry]
    · split
      · rename_i eq
        rw [lookup_entry, lookup_entry, ← eq]
        split <;> rfl
      · rename_i ne
        rw [lookup_entry, lookup_entry, ih]
        split
        · rename_i hk
          rw [if_neg (hk ▸ Ne.symm ne)]
        · rfl

@[simp] theorem get?_set (σ : Subst) (id i : Nat) (ty : Ty) :
    (σ.set id ty).get? i = if i = id then some ty else σ.get? i :=
  lookup_setEntry id i ty σ.entries

/-- An entry for an unknown without one leaves the other entries as they are. -/
theorem get?_set_of_free (free : σ.get? id = none) (ht : σ.get? i = some t) : (σ.set id ty).get? i = some t := by
  have ne : i ≠ id := by
    rintro rfl
    rw [free] at ht
    cases ht
  rw [get?_set, if_neg ne, ht]

@[simp] theorem get?_empty (i : Nat) : empty.get? i = none := rfl

/-- The unknowns with an entry. -/
def keys (σ : Subst) : Finset Nat := (σ.entries.map (·.1)).toFinset

theorem mem_keys_of_get? (h : σ.get? i = some t) : i ∈ σ.keys := by
  have entry : (i, t) ∈ σ.entries := by
    obtain ⟨l₁, l₂, split, -⟩ := List.lookup_eq_some_iff.1 h
    simp [split]
  simp only [keys, List.mem_toFinset, List.mem_map]
  exact ⟨(i, t), entry, rfl⟩

theorem get?_of_not_mem_keys (h : i ∉ σ.keys) : σ.get? i = none := by
  cases ht : σ.get? i with
  | none => rfl
  | some t => exact absurd (mem_keys_of_get? ht) h

theorem card_keys_le (σ : Subst) : σ.keys.card ≤ σ.size := by
  have := List.toFinset_card_le (σ.entries.map (·.1))
  rwa [List.length_map] at this

/-! ## Cycles -/

/-- There is an edge from an unknown with an entry to every unknown in the entry. -/
def Edge (σ : Subst) (i j : Nat) : Prop := ∃ t, σ.get? i = some t ∧ t.mentions j = true

/-- No unknown is reached from its own entry. -/
def Acyclic (σ : Subst) : Prop := ∀ i, ¬ TransGen σ.Edge i i

/-- The unknown is reached when entries are followed from the unknowns of the type on. -/
def Reaches (σ : Subst) (t : Ty) (k : Nat) : Prop := ∃ i, t.mentions i = true ∧ ReflTransGen σ.Edge i k

theorem not_edge (h : σ.get? i = none) : ¬ σ.Edge i j := by
  rintro ⟨t, ht, -⟩
  rw [h] at ht
  cases ht

/-- A chain ends at an unknown without an entry. -/
theorem eq_of_reach (h : σ.get? i = none) (r : ReflTransGen σ.Edge i j) : i = j := by
  cases r.cases_head with
  | inl eq => exact eq
  | inr step =>
    obtain ⟨_, edge, _⟩ := step
    exact absurd edge (not_edge h)

open Classical in
/-- The unknowns with entries that are met when entries are followed from `i` on. -/
noncomputable def ahead (σ : Subst) (i : Nat) : Finset Nat := σ.keys.filter (ReflTransGen σ.Edge i)

theorem mem_ahead : j ∈ σ.ahead i ↔ j ∈ σ.keys ∧ ReflTransGen σ.Edge i j := by
  classical
  exact Finset.mem_filter

theorem card_ahead_le (σ : Subst) (i : Nat) : (σ.ahead i).card ≤ σ.size :=
  (Finset.card_le_card fun _ hk => (mem_ahead.1 hk).1).trans σ.card_keys_le

/-- Following an edge leaves fewer entries ahead. -/
theorem card_ahead_lt (h : σ.Acyclic) (edge : σ.Edge i j) : (σ.ahead j).card < (σ.ahead i).card := by
  apply Finset.card_lt_card
  rw [Finset.ssubset_iff_of_subset]
  · obtain ⟨t, ht, hj⟩ := edge
    refine ⟨i, ?_, ?_⟩
    · exact mem_ahead.2 ⟨mem_keys_of_get? ht, .refl⟩
    · intro back
      exact h i (.head' ⟨t, ht, hj⟩ (mem_ahead.1 back).2)
  · intro k hk
    obtain ⟨key, reach⟩ := mem_ahead.1 hk
    exact mem_ahead.2 ⟨key, .head edge reach⟩

theorem Acyclic.wellFounded (h : σ.Acyclic) : WellFounded fun j i => σ.Edge i j :=
  Subrelation.wf (card_ahead_lt h) (measure fun i => (σ.ahead i).card).wf

/-! ## Resolving -/

/-- Once no entry is ahead that was not followed, following one more changes nothing. -/
theorem follow_succ (h : σ.Acyclic) {n : Nat} (enough : (σ.ahead i).card ≤ n) :
    σ.follow (n + 1) i = σ.follow n i := by
  induction n generalizing i with
  | zero =>
    have none_ahead : σ.get? i = none := by
      cases ht : σ.get? i with
      | none => rfl
      | some t =>
        have : i ∈ σ.ahead i := mem_ahead.2 ⟨mem_keys_of_get? ht, .refl⟩
        have := Finset.card_pos.2 ⟨i, this⟩
        omega
    simp only [follow, none_ahead]
  | succ n ih =>
    rw [follow, follow]
    cases ht : σ.get? i with
    | none => rfl
    | some t =>
      refine Ty.subst_congr fun j hj => ih ?_
      have := card_ahead_lt h ⟨t, ht, hj⟩
      omega

/-- An unknown without an entry stays. -/
theorem apply_free (h : σ.get? i = none) : σ.apply (.unknown i) = .unknown i := by
  rw [apply, Ty.subst]
  cases σ.size with
  | zero => rfl
  | succ n => rw [follow, h]

/-- An unknown with an entry resolves to what the entry resolves to. -/
theorem apply_entry (h : σ.Acyclic) (entry : σ.get? i = some t) : σ.apply (.unknown i) = σ.apply t := by
  rw [apply, Ty.subst, ← follow_succ h (σ.card_ahead_le i), follow, entry, apply]

theorem apply_eq_subst (σ : Subst) (t : Ty) : σ.apply t = t.subst fun i => σ.apply (.unknown i) := rfl

/-- A type whose unknowns have no entries is resolved already. -/
theorem apply_eq_self (h : ∀ i, t.mentions i = true → σ.get? i = none) : σ.apply t = t :=
  Ty.subst_eq_self fun i hi => apply_free (h i hi)

theorem mentions_apply_unknown (h : σ.Acyclic) :
    (σ.apply (.unknown i)).mentions k = true ↔ ReflTransGen σ.Edge i k ∧ σ.get? k = none := by
  induction i using h.wellFounded.induction with
  | _ i ih =>
    cases ht : σ.get? i with
    | none =>
      simp only [apply_free ht, Ty.mentions, decide_eq_true_eq]
      constructor
      · rintro rfl
        exact ⟨.refl, ht⟩
      · rintro ⟨reach, -⟩
        exact eq_of_reach ht reach
    | some t =>
      rw [apply_entry h ht, apply_eq_subst, Ty.mentions_subst]
      constructor
      · rintro ⟨j, hj, hk⟩
        obtain ⟨reach, free⟩ := (ih j ⟨t, ht, hj⟩).1 hk
        exact ⟨.head ⟨t, ht, hj⟩ reach, free⟩
      · rintro ⟨reach, free⟩
        -- the chain has a first edge, since its end has no entry and `i` has one
        rcases reach.cases_head with rfl | ⟨j, edge, reach⟩
        · rw [ht] at free
          cases free
        · obtain ⟨t', ht', hj⟩ := edge
          obtain rfl : t = t' := by rw [ht] at ht'; exact Option.some.inj ht'
          exact ⟨j, hj, (ih j ⟨t, ht, hj⟩).2 ⟨reach, free⟩⟩

/-- The unknowns of a resolved type are the ends of the chains that start in the type. -/
theorem mentions_apply (h : σ.Acyclic) :
    (σ.apply t).mentions k = true ↔ σ.Reaches t k ∧ σ.get? k = none := by
  rw [apply_eq_subst, Ty.mentions_subst]
  simp only [mentions_apply_unknown h, Reaches, ← and_assoc, exists_and_right]

/-- A resolved type mentions no unknown with an entry. -/
theorem get?_of_mentions_apply (h : σ.Acyclic) (hk : (σ.apply t).mentions k = true) : σ.get? k = none :=
  ((mentions_apply h).1 hk).2

/-! ## New entries -/

theorem edge_set (edge : (σ.set id ty).Edge i j) :
    (i = id ∧ ty.mentions j = true) ∨ (i ≠ id ∧ σ.Edge i j) := by
  obtain ⟨t, ht, hj⟩ := edge
  rw [get?_set] at ht
  split at ht
  · rename_i eq
    cases ht
    exact .inl ⟨eq, hj⟩
  · rename_i ne
    exact .inr ⟨ne, t, ht, hj⟩

/-- A chain through the new entry passes it once: it comes from old entries and goes on along old entries. -/
theorem reach_set (avoids : ¬ σ.Reaches ty id) (r : TransGen (σ.set id ty).Edge i k) :
    TransGen σ.Edge i k ∨ (ReflTransGen σ.Edge i id ∧ σ.Reaches ty k) := by
  induction r using TransGen.head_induction_on with
  | single edge =>
    rcases edge_set edge with ⟨rfl, hk⟩ | ⟨-, old⟩
    · exact .inr ⟨.refl, k, hk, .refl⟩
    · exact .inl (.single old)
  | head edge _ ih =>
    rcases edge_set edge with ⟨rfl, hj⟩ | ⟨-, old⟩
    · rcases ih with rest | ⟨back, -⟩
      · exact .inr ⟨.refl, _, hj, rest.to_reflTransGen⟩
      · exact absurd ⟨_, hj, back⟩ avoids
    · rcases ih with rest | ⟨before, after⟩
      · exact .inl (.head old rest)
      · exact .inr ⟨.head old before, after⟩

/-- An entry whose type does not lead back to its unknown closes no cycle. -/
theorem acyclic_set (h : σ.Acyclic) (avoids : ¬ σ.Reaches ty id) : (σ.set id ty).Acyclic := by
  intro i cycle
  rcases reach_set avoids cycle with old | ⟨before, j, hj, after⟩
  · exact h i old
  · exact avoids ⟨j, hj, after.trans before⟩

/-- An entry for an unknown without one closes no cycle unless the unknown occurs in the resolved type. -/
theorem Acyclic.set (h : σ.Acyclic) (free : σ.get? id = none) (absent : (σ.apply ty).mentions id = false) :
    (σ.set id ty).Acyclic := by
  refine acyclic_set h fun reached => ?_
  have : (σ.apply ty).mentions id = true := (mentions_apply h).2 ⟨reached, free⟩
  rw [absent] at this
  cases this

theorem acyclic_empty : Acyclic empty := by
  intro i cycle
  obtain ⟨j, edge, -⟩ := TransGen.head'_iff.1 cycle
  exact not_edge (get?_empty i) edge

end Monolet.Subst
