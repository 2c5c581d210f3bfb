import Mathlib
import Monolet.Proofs.Subst.Acyclic

/-!
# Recording entries

`insert` resolves the new type by the entries that are there and refuses it when the unknown occurs in the result. For
an unknown without an entry this decides exactly whether the new entry closes a cycle (`insert_of_free`): a chain
back to the unknown ends there, so it shows in the resolved type. An unknown that has an entry never shows in a
resolved type, so `insert` replaces the entry by whatever it is given (`insert_of_entry`), and a type that led to the
unknown through other entries now leads around in a cycle.

A list of entries with different unknowns never replaces any. Recording the list fails exactly when its entries form a
cycle (`foldlM_insert`): the check sees a cycle when its last entry arrives, whichever that is.
-/

namespace Monolet.Subst

open Relation

variable {σ σ' : Subst} {i j k id : Nat} {t u ty : Ty}

/-! ## Resolving ends -/

/-- Resolving as a recursion that follows one entry at a time. A derivation is a run of it that ends. -/
inductive Resolves (σ : Subst) : Ty → Ty → Prop where
  | int : Resolves σ .int .int
  | bool : Resolves σ .bool .bool
  | string : Resolves σ .string .string
  | free {i : Nat} : σ.get? i = none → Resolves σ (.unknown i) (.unknown i)
  | entry {i : Nat} {t u : Ty} : σ.get? i = some t → Resolves σ t u → Resolves σ (.unknown i) u
  | fn {arg res arg' res' : Ty} : Resolves σ arg arg' → Resolves σ res res' → Resolves σ (.fn arg res) (.fn arg' res')

theorem resolves_of_unknowns (h : ∀ i, t.mentions i = true → σ.Resolves (.unknown i) (σ.apply (.unknown i))) :
    σ.Resolves t (σ.apply t) := by
  induction t with
  | int => exact .int
  | bool => exact .bool
  | string => exact .string
  | unknown i => exact h i (by simp [Ty.mentions])
  | fn arg res iha ihr =>
    have ha := iha fun i hi => h i (by simp [Ty.mentions, hi])
    have hr := ihr fun i hi => h i (by simp [Ty.mentions, hi])
    exact .fn ha hr

/-- Without cycles, resolving ends on every type, and `apply` returns what it ends with. -/
theorem Acyclic.resolves (h : σ.Acyclic) (t : Ty) : σ.Resolves t (σ.apply t) := by
  have ends (i : Nat) : σ.Resolves (.unknown i) (σ.apply (.unknown i)) := by
    induction i using h.wellFounded.induction with
    | _ i ih =>
      cases ht : σ.get? i with
      | none =>
        rw [apply_free ht]
        exact .free ht
      | some t =>
        rw [apply_entry h ht]
        exact .entry ht (resolves_of_unknowns fun j hj => ih j ⟨t, ht, hj⟩)
  exact resolves_of_unknowns fun i _ => ends i

/-- Where resolving ends, no unknown of the type is on a cycle. -/
theorem Resolves.not_cycle (r : σ.Resolves t u) (hi : t.mentions i = true) : ¬ TransGen σ.Edge i i := by
  intro cycle
  induction r generalizing i with
  | int => cases hi
  | bool => cases hi
  | string => cases hi
  | @free k free =>
    obtain rfl : k = i := by simpa [Ty.mentions] using hi
    obtain ⟨_, edge, -⟩ := TransGen.head'_iff.1 cycle
    exact not_edge free edge
  | @entry k t u ht _ ih =>
    obtain rfl : k = i := by simpa [Ty.mentions] using hi
    -- the cycle can be entered one edge later, at an unknown of the entry
    obtain ⟨j, edge, back⟩ := TransGen.head'_iff.1 cycle
    obtain ⟨t', ht', hj⟩ := edge
    obtain rfl : t = t' := Option.some.inj (ht.symm.trans ht')
    exact ih hj (.tail' back ⟨t, ht, hj⟩)
  | fn _ _ iha ihr =>
    rcases Bool.or_eq_true_iff.1 hi with ha | hr
    · exact iha ha cycle
    · exact ihr hr cycle

/-! ## One entry -/

theorem edge_set_of_ne (ne : i ≠ id) (edge : σ.Edge i j) : (σ.set id ty).Edge i j := by
  obtain ⟨t, ht, hj⟩ := edge
  exact ⟨t, by rw [get?_set, if_neg ne, ht], hj⟩

/-- A chain to an unknown needs no entry of that unknown. -/
theorem reach_set_self (r : ReflTransGen σ.Edge i id) : ReflTransGen (σ.set id ty).Edge i id := by
  induction r using ReflTransGen.head_induction_on with
  | refl => exact .refl
  | @head i j edge _ ih =>
    by_cases eq : i = id
    · rw [eq]
    · exact .head (edge_set_of_ne eq edge) ih

/-- A type that leads to an unknown closes a cycle when it becomes the entry of the unknown. -/
theorem cycle_set (reached : σ.Reaches ty id) : TransGen (σ.set id ty).Edge id id := by
  obtain ⟨j, hj, reach⟩ := reached
  exact .head' ⟨ty, by simp, hj⟩ (reach_set_self reach)

theorem acyclic_set_iff (h : σ.Acyclic) : (σ.set id ty).Acyclic ↔ ¬ σ.Reaches ty id := by
  constructor
  · intro acyclic reached
    exact acyclic id (cycle_set reached)
  · exact acyclic_set h

/-- For an unknown without an entry, `insert` refuses exactly the entries that close a cycle. -/
theorem insert_of_free (h : σ.Acyclic) (free : σ.get? id = none) (ty : Ty) :
    ((σ.set id ty).Acyclic → σ.insert id ty = .ok (σ.set id ty)) ∧
      (¬ (σ.set id ty).Acyclic → σ.insert id ty = .error ⟨id, ty⟩) := by
  have seen : (σ.apply ty).mentions id = true ↔ σ.Reaches ty id := by
    rw [mentions_apply h, and_iff_left free]
  rw [acyclic_set_iff h, ← seen, insert]
  constructor
  · intro absent
    rw [if_neg absent]
  · intro present
    rw [if_pos (not_not.1 present)]

/-- An entry that is there already is replaced without any question. -/
theorem insert_of_entry (h : σ.Acyclic) (entry : σ.get? id = some t) : σ.insert id ty = .ok (σ.set id ty) := by
  rw [insert, if_neg]
  intro present
  rw [get?_of_mentions_apply h present] at entry
  cases entry

/-- A replacement that leads to its own unknown closes a cycle, and resolving the unknown does not end any more. -/
theorem insert_cycle (h : σ.Acyclic) (entry : σ.get? id = some t) (reached : σ.Reaches ty id) :
    σ.insert id ty = .ok (σ.set id ty) ∧ ¬ (σ.set id ty).Acyclic ∧ ∀ u, ¬ (σ.set id ty).Resolves (.unknown id) u := by
  have cycle := cycle_set reached
  refine ⟨insert_of_entry h entry, fun acyclic => acyclic id cycle, fun u ends => ?_⟩
  exact ends.not_cycle (by simp [Ty.mentions]) cycle

/-- **Insertion closes no cycle.** Take a substitution without cycles, and an unknown that has no entry or is not led
to by the new type. Then `insert` refuses the new entry, which would close a cycle, or records it and leaves a
substitution without cycles, on which resolving ends for every type. -/
theorem insert_acyclic (σ : Subst) (h : σ.Acyclic) (id : Nat) (ty : Ty)
    (harmless : σ.get? id = none ∨ ¬ σ.Reaches ty id) :
    (σ.insert id ty = .error ⟨id, ty⟩ ∧ ¬ (σ.set id ty).Acyclic) ∨
      (σ.insert id ty = .ok (σ.set id ty) ∧ (σ.set id ty).Acyclic ∧
        ∀ t, (σ.set id ty).Resolves t ((σ.set id ty).apply t)) := by
  by_cases acyclic : (σ.set id ty).Acyclic
  · refine .inr ⟨?_, acyclic, acyclic.resolves⟩
    cases entry : σ.get? id with
    | none => exact (insert_of_free h entry ty).1 acyclic
    | some t => exact insert_of_entry h entry
  · have free : σ.get? id = none := harmless.resolve_right fun avoids => acyclic (acyclic_set h avoids)
    exact .inl ⟨(insert_of_free h free ty).2 acyclic, acyclic⟩

/-- `u1 ↦ Int` and `u2 ↦ u1`. -/
def numbered : Subst := (empty.set 1 .int).set 2 (.unknown 1)

theorem acyclic_numbered : numbered.Acyclic := (acyclic_empty.set rfl rfl).set rfl rfl

/-- After these, `u3 ↦ u2 -> u4` is recorded, and `u3` resolves to `Int -> u4`; `u3 ↦ u2 -> u3` is refused. -/
theorem insert_acyclic_numbered :
    numbered.Acyclic ∧ numbered.get? 3 = none ∧
      numbered.insert 3 (.fn (.unknown 2) (.unknown 4)) = .ok (numbered.set 3 (.fn (.unknown 2) (.unknown 4))) ∧
      (numbered.set 3 (.fn (.unknown 2) (.unknown 4))).Resolves (.unknown 3) (.fn .int (.unknown 4)) ∧
      numbered.insert 3 (.fn (.unknown 2) (.unknown 3)) = .error ⟨3, .fn (.unknown 2) (.unknown 3)⟩ ∧
      ¬ (numbered.set 3 (.fn (.unknown 2) (.unknown 3))).Acyclic := by
  have outcome (ty : Ty) := insert_acyclic numbered acyclic_numbered 3 ty (.inl rfl)
  have accepted := (outcome (.fn (.unknown 2) (.unknown 4))).resolve_left fun refused => by cases refused.1
  have refused := (outcome (.fn (.unknown 2) (.unknown 3))).resolve_right fun accepted => by cases accepted.1
  exact ⟨acyclic_numbered, rfl, accepted.1, accepted.2.2 (.unknown 3), refused⟩

/-- When `u1 ↦ Int` is replaced by `u1 ↦ u2`, nothing is refused: `u2` resolved to `Int` through the old entry. The two
unknowns then lead to each other, and resolving `u1` does not end. -/
theorem insert_closesCycle :
    numbered.Acyclic ∧ numbered.insert 1 (.unknown 2) = .ok (numbered.set 1 (.unknown 2)) ∧
      ¬ (numbered.set 1 (.unknown 2)).Acyclic ∧
      ∀ u, ¬ (numbered.set 1 (.unknown 2)).Resolves (.unknown 1) u := by
  have edge : numbered.Edge 2 1 := ⟨.unknown 1, rfl, rfl⟩
  exact ⟨acyclic_numbered, insert_cycle acyclic_numbered rfl ⟨2, rfl, .single edge⟩⟩

/-! ## Lists of entries -/

section List

variable {l l' : List (Nat × Ty)}

theorem mem_entries {e : Nat × Ty} : e ∈ σ.entries ↔ σ.get? e.1 = some e.2 := by
  rw [get?, List.lookup_eq_some_iff]
  constructor
  · intro mem
    obtain ⟨before, after, split⟩ := List.append_of_mem mem
    refine ⟨before, after, split, fun p hp => ?_⟩
    have ascending := σ.ascending
    rw [split, List.pairwise_append] at ascending
    have lt : p.1 < e.1 := ascending.2.2 p hp e (List.mem_cons_self ..)
    simp only [bne_iff_ne, ne_eq]
    omega
  · rintro ⟨before, after, split, -⟩
    simp [split]

/-- Substitutions are the same when all look-ups are. -/
theorem ext_get? (h : ∀ i, σ.get? i = σ'.get? i) : σ = σ' := by
  have nodup (τ : Subst) : τ.entries.Nodup := τ.ascending.imp fun lt eq => by
    rw [eq] at lt
    omega
  have perm : σ.entries.Perm σ'.entries := by
    refine (List.perm_ext_iff_of_nodup (nodup σ) (nodup σ')).2 fun e => ?_
    rw [mem_entries, mem_entries, h]
  have eq : σ.entries = σ'.entries :=
    perm.eq_of_pairwise (fun a b _ _ lt gt => by omega) σ.ascending σ'.ascending
  cases σ
  cases σ'
  cases eq
  rfl

/-- Record the entries of a list one after the other, whatever they are. -/
def setAll (σ : Subst) (l : List (Nat × Ty)) : Subst := l.foldl (fun σ e => σ.set e.1 e.2) σ

/-- The unknowns of the list are different from each other and have no entries yet. -/
structure Fresh (σ : Subst) (l : List (Nat × Ty)) : Prop where
  distinct : (l.map Prod.fst).Nodup
  free : ∀ e ∈ l, σ.get? e.1 = none

theorem fresh_empty (distinct : (l.map Prod.fst).Nodup) : empty.Fresh l := ⟨distinct, fun _ _ => rfl⟩

theorem Fresh.tail (h : σ.Fresh ((id, ty) :: l)) : (σ.set id ty).Fresh l := by
  obtain ⟨other, distinct⟩ := List.nodup_cons.1 h.distinct
  refine ⟨distinct, fun e he => ?_⟩
  have listed : e.1 ∈ l.map Prod.fst := List.mem_map_of_mem he
  have ne : e.1 ≠ id := fun eq => other (eq ▸ listed)
  rw [get?_set, if_neg ne, h.free e (List.mem_cons_of_mem _ he)]

theorem get?_setAll (h : σ.Fresh l) : (σ.setAll l).get? i = some t ↔ (i, t) ∈ l ∨ σ.get? i = some t := by
  induction l generalizing σ with
  | nil => simp [setAll]
  | cons e l ih =>
    obtain ⟨id, ty⟩ := e
    have free : σ.get? id = none := h.free _ (List.mem_cons_self ..)
    have later : (σ.setAll ((id, ty) :: l)).get? i = some t ↔ (i, t) ∈ l ∨ (σ.set id ty).get? i = some t := ih h.tail
    rw [later, get?_set, List.mem_cons, Prod.mk.injEq]
    by_cases eq : i = id
    · subst eq
      simp [free, or_comm, eq_comm]
    · simp [eq]

theorem get?_setAll_empty (distinct : (l.map Prod.fst).Nodup) : (empty.setAll l).get? i = some t ↔ (i, t) ∈ l := by
  rw [get?_setAll (fresh_empty distinct), get?_empty]
  simp

theorem Acyclic.of_keeps (h : σ'.Acyclic) (keeps : ∀ i t, σ.get? i = some t → σ'.get? i = some t) : σ.Acyclic := by
  intro i cycle
  refine h i (TransGen.mono ?_ i i cycle)
  rintro i j ⟨t, ht, hj⟩
  exact ⟨t, keeps i t ht, hj⟩

/-- Recording a list stops exactly when all its entries together have a cycle. -/
theorem foldlM_insert (h : σ.Acyclic) (fresh : σ.Fresh l) :
    ((σ.setAll l).Acyclic → l.foldlM (fun σ e => σ.insert e.1 e.2) σ = .ok (σ.setAll l)) ∧
      (¬ (σ.setAll l).Acyclic → ∃ cycle, l.foldlM (fun σ e => σ.insert e.1 e.2) σ = .error cycle) := by
  induction l generalizing σ with
  | nil => exact ⟨fun _ => rfl, fun cyclic => absurd h cyclic⟩
  | cons e l ih =>
    obtain ⟨id, ty⟩ := e
    have one := insert_of_free h (fresh.free _ (List.mem_cons_self ..)) ty
    rw [List.foldlM_cons]
    by_cases acyclic : (σ.set id ty).Acyclic
    · rw [one.1 acyclic]
      exact ih acyclic fresh.tail
    · -- the entries to come do not open the cycle again
      have stays : ¬ (σ.setAll ((id, ty) :: l)).Acyclic := fun later =>
        acyclic (later.of_keeps fun i t ht => (get?_setAll fresh.tail).2 (.inr ht))
      rw [one.2 acyclic]
      exact ⟨fun later => absurd later stays, fun _ => ⟨_, rfl⟩⟩

/-- In a list of entries, an unknown leads to those unknowns of its type that have entries in the list, too. -/
def Leads (l : List (Nat × Ty)) (i j : Nat) : Prop := ∃ t, (i, t) ∈ l ∧ t.mentions j = true ∧ j ∈ l.map Prod.fst

theorem edge_setAll (distinct : (l.map Prod.fst).Nodup) :
    (empty.setAll l).Edge i j ↔ ∃ t, (i, t) ∈ l ∧ t.mentions j = true := by
  simp only [Edge, get?_setAll_empty distinct]

/-- Every chain between unknowns of the list passes through unknowns of the list. -/
theorem leads_of_reach (distinct : (l.map Prod.fst).Nodup) (hk : k ∈ l.map Prod.fst)
    (r : TransGen (empty.setAll l).Edge i k) : TransGen (Leads l) i k := by
  induction r using TransGen.head_induction_on with
  | single edge =>
    obtain ⟨t, entry, hj⟩ := (edge_setAll distinct).1 edge
    exact .single ⟨t, entry, hj, hk⟩
  | head edge rest ih =>
    obtain ⟨t, entry, hj⟩ := (edge_setAll distinct).1 edge
    obtain ⟨_, onward, -⟩ := TransGen.head'_iff.1 rest
    obtain ⟨u, entry', -⟩ := (edge_setAll distinct).1 onward
    exact .head ⟨t, entry, hj, List.mem_map_of_mem entry'⟩ ih

theorem acyclic_setAll_iff (distinct : (l.map Prod.fst).Nodup) :
    (empty.setAll l).Acyclic ↔ ¬ ∃ i, TransGen (Leads l) i i := by
  constructor
  · rintro acyclic ⟨i, cycle⟩
    refine acyclic i (TransGen.mono ?_ i i cycle)
    rintro i j ⟨t, entry, hj, -⟩
    exact (edge_setAll distinct).2 ⟨t, entry, hj⟩
  · intro none i cycle
    obtain ⟨_, onward, -⟩ := TransGen.head'_iff.1 cycle
    obtain ⟨t, entry, -⟩ := (edge_setAll distinct).1 onward
    exact none ⟨i, leads_of_reach distinct (List.mem_map_of_mem entry) cycle⟩

theorem setAll_perm (distinct : (l.map Prod.fst).Nodup) (perm : l'.Perm l) : empty.setAll l' = empty.setAll l := by
  have distinct' : (l'.map Prod.fst).Nodup := (perm.map Prod.fst).nodup_iff.2 distinct
  refine ext_get? fun i => Option.ext fun t => ?_
  rw [get?_setAll_empty distinct, get?_setAll_empty distinct', perm.mem_iff]

/-- **Lists of entries.** Take a list of entries for different unknowns. In every order, recording it is refused exactly
when some unknown of the list leads back to itself. Otherwise every order gives one and the same substitution, with the
entries of the list. -/
theorem ofList_perm (l : List (Nat × Ty)) (distinct : (l.map Prod.fst).Nodup) :
    (∀ l', l'.Perm l → ((∃ cycle, ofList l' = .error cycle) ↔ ∃ i, TransGen (Leads l) i i)) ∧
      ((¬ ∃ i, TransGen (Leads l) i i) →
        ∃ σ, (∀ i t, σ.get? i = some t ↔ (i, t) ∈ l) ∧ ∀ l', l'.Perm l → ofList l' = .ok σ) := by
  have recorded (l' : List (Nat × Ty)) (perm : l'.Perm l) :
      ((empty.setAll l).Acyclic → ofList l' = .ok (empty.setAll l)) ∧
        (¬ (empty.setAll l).Acyclic → ∃ cycle, ofList l' = .error cycle) := by
    have distinct' : (l'.map Prod.fst).Nodup := (perm.map Prod.fst).nodup_iff.2 distinct
    rw [← setAll_perm distinct perm]
    exact foldlM_insert acyclic_empty (fresh_empty distinct')
  rw [acyclic_setAll_iff distinct] at recorded
  refine ⟨fun l' perm => ⟨?_, fun cyclic => (recorded l' perm).2 (not_not.2 cyclic)⟩, fun none => ?_⟩
  · rintro ⟨cycle, refused⟩
    by_contra none
    rw [(recorded l' perm).1 none] at refused
    cases refused
  · exact ⟨_, fun i t => get?_setAll_empty distinct, fun l' perm => (recorded l' perm).1 none⟩

end List

/-- `u1 ↦ u2`, `u2 ↦ u3 -> Int` and `u3 ↦ u1`. -/
def circle : List (Nat × Ty) := [(1, .unknown 2), (2, .fn (.unknown 3) .int), (3, .unknown 1)]

/-- The three entries are refused in every order. Without the first one the others are recorded, in both orders. -/
theorem ofList_perm_circle :
    (circle.map Prod.fst).Nodup ∧ (∀ l', l'.Perm circle → ∃ cycle, ofList l' = .error cycle) ∧
      (circle.tail.map Prod.fst).Nodup ∧
      ∃ σ, ofList circle.tail = .ok σ ∧ ofList circle.tail.reverse = .ok σ ∧
        σ.get? 2 = some (.fn (.unknown 3) .int) := by
  have distinct : (circle.map Prod.fst).Nodup := by decide
  have distinct' : (circle.tail.map Prod.fst).Nodup := by decide
  obtain ⟨refused, -⟩ := ofList_perm circle distinct
  obtain ⟨refused', recorded⟩ := ofList_perm circle.tail distinct'
  have one : Leads circle 1 2 := ⟨.unknown 2, by simp [circle], rfl, by simp [circle]⟩
  have two : Leads circle 2 3 := ⟨.fn (.unknown 3) .int, by simp [circle], rfl, by simp [circle]⟩
  have three : Leads circle 3 1 := ⟨.unknown 1, by simp [circle], rfl, by simp [circle]⟩
  have around : TransGen (Leads circle) 1 1 := .head one (.head two (.single three))
  have none : ¬ ∃ i, TransGen (Leads circle.tail) i i := by
    rw [← refused' circle.tail (.refl _)]
    rintro ⟨cycle, error⟩
    cases error
  obtain ⟨σ, entries, same⟩ := recorded none
  refine ⟨distinct, fun l' perm => (refused l' perm).2 ⟨1, around⟩, distinct', σ, same _ (.refl _), ?_, ?_⟩
  · exact same _ (List.reverse_perm _)
  · exact (entries 2 _).2 (by simp [circle])

end Monolet.Subst
