import Monolet.Ty.Basic

/-!
# Assignments in types

What `subst` does to a type depends on the unknowns in it only (`subst_congr`). An unknown never equals a
larger type it occurs in, whatever the assignment (`ne_subst_of_mentions`): the type would be larger than
itself.
-/

namespace Monolet.Ty

variable {θ θ' : Nat → Ty} {t u : Ty} {id : Nat}

/-- Assignments that agree on the unknowns of a type do the same to it. -/
theorem subst_congr (h : ∀ id, t.mentions id = true → θ id = θ' id) : t.subst θ = t.subst θ' := by
  induction t with
  | unknown id => exact h id (by simp [mentions])
  | fn arg res iha ihr =>
    have ha := iha fun id hid => h id (by simp [mentions, hid])
    have hr := ihr fun id hid => h id (by simp [mentions, hid])
    rw [subst, subst, ha, hr]
  | _ => rfl

theorem subst_unknown (t : Ty) : t.subst unknown = t := by
  induction t with
  | fn arg res iha ihr => rw [subst, iha, ihr]
  | _ => rfl

/-- An assignment that leaves the unknowns of a type alone leaves the type alone. -/
theorem subst_eq_self (h : ∀ id, t.mentions id = true → θ id = unknown id) : t.subst θ = t :=
  (subst_congr h).trans (subst_unknown t)

theorem subst_subst (t : Ty) : (t.subst θ).subst θ' = t.subst fun id => (θ id).subst θ' := by
  induction t with
  | fn arg res iha ihr => rw [subst, subst, subst, iha, ihr]
  | _ => rfl

/-- An assignment that gives an unknown the type assigned to it absorbs the assigning. -/
theorem subst_assign (h : θ id = u.subst θ) (t : Ty) : (t.assign id u).subst θ = t.subst θ := by
  rw [assign, subst_subst]
  refine subst_congr fun n _ => ?_
  by_cases hn : n = id
  · rw [hn, if_pos rfl, h]
  · rw [if_neg hn, subst]

/-- The type of an unknown is no larger than what becomes of a type it occurs in. -/
theorem size_le_size_subst (h : t.mentions id = true) : (θ id).size ≤ (t.subst θ).size := by
  induction t with
  | unknown n =>
    have hn : n = id := by simpa [mentions] using h
    exact hn ▸ Nat.le_refl _
  | fn arg res iha ihr =>
    rw [subst, size]
    rcases Bool.or_eq_true_iff.1 h with ha | hr
    · have := iha ha; omega
    · have := ihr hr; omega
  | _ => simp [mentions] at h

/-- The occurs check refuses nothing that could be solved. -/
theorem ne_subst_of_mentions (h : t.mentions id = true) (ne : t ≠ unknown id) : θ id ≠ t.subst θ := by
  intro eq
  cases t with
  | unknown n => exact ne (by simpa [mentions] using h)
  | fn arg res =>
    rw [subst] at eq
    have smaller : (θ id).size < (fn (arg.subst θ) (res.subst θ)).size := by
      rw [size]
      rcases Bool.or_eq_true_iff.1 h with ha | hr
      · have := size_le_size_subst (θ := θ) ha; omega
      · have := size_le_size_subst (θ := θ) hr; omega
    rw [← eq] at smaller
    omega
  | _ => simp [mentions] at h

end Monolet.Ty
