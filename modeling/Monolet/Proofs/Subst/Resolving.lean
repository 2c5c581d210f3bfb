import Mathlib
import Monolet.Proofs.Subst.Insertion
import Monolet.Proofs.Subst.Unifier

/-!
# Laws of resolving

Resolving follows entries until there are none left to follow. So it comes to one type at most (`Resolves.unique`), and on
that type there is nothing to do for it (`Resolves.again`). Without cycles it always comes to a type, which is what `apply`
returns (`Acyclic.resolves_iff`).

Types are resolved early and resolved again once more is known. That the early resolving does no harm is the absorption
law: a substitution with further entries makes the same of a type and of what it resolved to before.
-/

namespace Monolet.Subst

variable {σ : Subst} {t u u' : Ty} {id : Nat}

theorem Resolves.unique (h : σ.Resolves t u) (h' : σ.Resolves t u') : u = u' := by
  induction h generalizing u' with
  | int | bool | string =>
    cases h'
    rfl
  | free free =>
    cases h' with
    | free => rfl
    | entry entry =>
      rw [free] at entry
      cases entry
  | entry entry _ ih =>
    cases h' with
    | free free =>
      rw [free] at entry
      cases entry
    | entry entry' rest =>
      rw [entry] at entry'
      cases entry'
      exact ih rest
  | fn _ _ ihArg ihRes =>
    cases h' with
    | fn arg res => rw [ihArg arg, ihRes res]

/-- What was resolved resolves to itself. -/
theorem Resolves.again (h : σ.Resolves t u) : σ.Resolves u u := by
  induction h with
  | int => exact .int
  | bool => exact .bool
  | string => exact .string
  | free free => exact .free free
  | entry _ _ ih => exact ih
  | fn _ _ ihArg ihRes => exact .fn ihArg ihRes

/-- Without cycles, every type resolves to one type, and `apply` returns it. -/
theorem Acyclic.resolves_iff (h : σ.Acyclic) : σ.Resolves t u ↔ u = σ.apply t := by
  constructor
  · intro ends
    exact ends.unique (h.resolves t)
  · rintro rfl
    exact h.resolves t

theorem exists_get?_of_mem_keys (h : id ∈ σ.keys) : ∃ t, σ.get? id = some t := by
  obtain ⟨⟨_, t⟩, entry, rfl⟩ := List.mem_map.1 (List.mem_toFinset.1 h)
  exact ⟨t, mem_entries.1 entry⟩

/-- **Resolving.** Without cycles, following the entries of a type comes to exactly one type, and `apply` returns it. No
unknown with an entry is left in it, and resolving it again changes nothing. Whoever has all these entries and maybe
more, without cycles, resolves it to the same as the type that it came from. -/
theorem apply_absorbs (σ : Subst) (h : σ.Acyclic) (t : Ty) :
    (∀ u, σ.Resolves t u ↔ u = σ.apply t) ∧
      (∀ id ∈ σ.keys, (σ.apply t).mentions id = false) ∧
      σ.apply (σ.apply t) = σ.apply t ∧
      ∀ σ' : Subst, σ'.Acyclic → σ.entries ⊆ σ'.entries → σ'.apply (σ.apply t) = σ'.apply t := by
  refine ⟨fun u => h.resolves_iff, fun id key => ?_, ?_, fun σ' h' more => ?_⟩
  · obtain ⟨u, entry⟩ := exists_get?_of_mem_keys key
    rw [Bool.eq_false_iff]
    intro left
    rw [get?_of_mentions_apply h left] at entry
    cases entry
  · exact ((h.resolves t).again.unique (h.resolves _)).symm
  · refine h'.apply_apply (fun i u entry => ?_) t
    have listed : (i, u) ∈ σ.entries := mem_entries.2 entry
    exact mem_entries.1 (more listed)

/-- After `u1 ↦ u2 -> u3` and `u2 ↦ u4`, the unknown `u1` resolves to `u4 -> u3`. Once `u4 ↦ Int -> u3` is known too, it
resolves to `(Int -> u3) -> u3`, and so does `u4 -> u3`. -/
theorem apply_absorbs_chained :
    chained.Acyclic ∧ (chained.set 4 (.fn .int (.unknown 3))).Acyclic ∧
      chained.entries ⊆ (chained.set 4 (.fn .int (.unknown 3))).entries ∧
      chained.apply (.unknown 1) = .fn (.unknown 4) (.unknown 3) ∧
      chained.apply (.fn (.unknown 4) (.unknown 3)) = .fn (.unknown 4) (.unknown 3) ∧
      (chained.set 4 (.fn .int (.unknown 3))).apply (.fn (.unknown 4) (.unknown 3)) =
        (chained.set 4 (.fn .int (.unknown 3))).apply (.unknown 1) := by
  have later : (chained.set 4 (.fn .int (.unknown 3))).Acyclic := acyclic_chained.set rfl rfl
  have more : chained.entries ⊆ (chained.set 4 (.fn .int (.unknown 3))).entries := by decide
  have resolved : chained.apply (.unknown 1) = .fn (.unknown 4) (.unknown 3) := rfl
  obtain ⟨-, -, again, absorbed⟩ := apply_absorbs chained acyclic_chained (.unknown 1)
  rw [resolved] at again absorbed
  exact ⟨acyclic_chained, later, more, resolved, again, absorbed _ later more⟩

end Monolet.Subst
