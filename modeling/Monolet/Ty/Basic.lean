import Monolet.Ascending

/-!
# Types

Monomorphic types with unknowns, which are numbered from one. An assignment `Nat → Ty` gives a type to every
unknown, and `subst` puts these types in place of the unknowns.
-/

namespace Monolet

/-- Types without quantifiers. -/
inductive Ty where
  | int
  | bool
  | string
  | fn (arg res : Ty)
  | unknown (id : Nat)
deriving DecidableEq

namespace Ty

/-- The function type with several arguments. -/
def curried (args : List Ty) (res : Ty) : Ty := args.foldr fn res

/-- Integers, booleans and strings. -/
def isPrimitive : Ty → Bool
  | int | bool | string => true
  | fn .. | unknown _ => false

/-- The unknowns of a type, in ascending order. -/
def unknowns : Ty → List Nat
  | int | bool | string => []
  | unknown id => [id]
  | fn arg res => Ascending.union arg.unknowns res.unknowns

/-- Does an unknown occur in the type? -/
def mentions (id : Nat) : Ty → Bool
  | int | bool | string => false
  | unknown other => other = id
  | fn arg res => arg.mentions id || res.mentions id

/-- The number of constructors. -/
def size : Ty → Nat
  | int | bool | string | unknown _ => 1
  | fn arg res => arg.size + res.size + 1

/-- Put the types of an assignment in place of the unknowns. -/
def subst (θ : Nat → Ty) : Ty → Ty
  | int => int
  | bool => bool
  | string => string
  | unknown id => θ id
  | fn arg res => fn (arg.subst θ) (res.subst θ)

/-- Put one type in place of one unknown. -/
def assign (t : Ty) (id : Nat) (ty : Ty) : Ty := t.subst fun n => if n = id then ty else unknown n

theorem mem_unknowns {id : Nat} {t : Ty} : id ∈ t.unknowns ↔ t.mentions id = true := by
  induction t with
  | unknown n => simp [unknowns, mentions, eq_comm]
  | _ => simp_all [unknowns, mentions]

theorem size_pos (t : Ty) : 0 < t.size := by
  cases t <;> simp [size]

theorem mentions_subst {θ : Nat → Ty} {k : Nat} {t : Ty} :
    (t.subst θ).mentions k = true ↔ ∃ id, t.mentions id = true ∧ (θ id).mentions k = true := by
  induction t with
  | fn arg res iha ihr => simp [subst, mentions, iha, ihr, or_and_right, exists_or]
  | _ => simp [subst, mentions]

theorem mentions_assign {id k : Nat} {s t : Ty} :
    (s.assign id t).mentions k = true ↔
      (s.mentions id = true ∧ t.mentions k = true) ∨ (k ≠ id ∧ s.mentions k = true) := by
  rw [assign, mentions_subst]
  constructor
  · rintro ⟨n, hn, hk⟩
    by_cases h : n = id
    · subst h; simp_all
    · simp_all [mentions]
  · rintro (⟨hs, ht⟩ | ⟨hk, hs⟩)
    · exact ⟨id, hs, by simpa using ht⟩
    · exact ⟨k, hs, by simp [hk, mentions]⟩

end Ty

end Monolet
