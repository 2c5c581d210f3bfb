import Monolet.Expr.Basic
import Monolet.Primitive
import Monolet.Proofs.Ty.Assignment

/-!
# Typing rules

The rules that inference has to agree with, one for each construct. They mention neither unknowns to be solved nor
substitutions: where inference would hand out an unknown, a rule takes any type. A name that is bound has one
type for all its uses, and a recursive `let` types its value with the type the name has in the body.

An environment matters through its look-ups only (`HasType.congr`).
-/

namespace Monolet

namespace NameMap

variable {α β : Type}

/-- The same names, bound to the images of what they were bound to. -/
def map (f : α → β) (m : NameMap α) : NameMap β := ⟨m.bindings.map fun b => (b.1, f b.2)⟩

@[simp] theorem get?_map (f : α → β) (m : NameMap α) (name : String) :
    (m.map f).get? name = (m.get? name).map f := by
  obtain ⟨bindings⟩ := m
  simp only [get?, map]
  induction bindings with
  | nil => rfl
  | cons b l ih =>
    rw [List.map_cons, List.lookup_cons, List.lookup_cons]
    cases name == b.1
    · exact ih
    · rfl

/-- Maps with the same look-ups have the same look-ups after one more name is bound. -/
theorem get?_insert_congr {m m' : NameMap α} (h : ∀ name, m.get? name = m'.get? name) (x : String) (a : α) :
    ∀ name, (m.insert x a).get? name = (m'.insert x a).get? name := by
  intro name
  rw [get?_insert, get?_insert, h]

end NameMap

namespace TypeEnv

/-- Put the types of an assignment in place of the unknowns of an environment. -/
def subst (θ : Nat → Ty) (Γ : TypeEnv) : TypeEnv := Γ.map (·.subst θ)

/-- No type of the environment mentions an unknown. -/
def Closed (Γ : TypeEnv) : Prop := ∀ x t, Γ.get? x = some t → ∀ id, t.mentions id = false

theorem closed_empty : Closed {} := by
  intro x t found
  cases found

theorem Closed.insert {Γ : TypeEnv} {x : String} {t : Ty} (h : Γ.Closed) (ht : ∀ id, t.mentions id = false) :
    TypeEnv.Closed (Γ.insert x t) := by
  intro y u found
  rw [NameMap.get?_insert] at found
  split at found
  · cases found
    exact ht
  · exact h y u found

theorem get?_subst (θ : Nat → Ty) (Γ : TypeEnv) (x : String) :
    (Γ.subst θ).get? x = (Γ.get? x).map (·.subst θ) := NameMap.get?_map ..

theorem subst_insert (θ : Nat → Ty) (Γ : TypeEnv) (x : String) (t : Ty) :
    TypeEnv.subst θ (Γ.insert x t) = (Γ.subst θ).insert x (t.subst θ) := rfl

/-- An assignment changes no look-up in an environment without unknowns. -/
theorem Closed.get?_subst {Γ : TypeEnv} (h : Γ.Closed) (θ : Nat → Ty) (x : String) :
    (Γ.subst θ).get? x = Γ.get? x := by
  rw [TypeEnv.get?_subst]
  cases ht : Γ.get? x with
  | none => rfl
  | some t =>
    have : t.subst θ = t := Ty.subst_eq_self fun id hid => by
      rw [h x t ht id] at hid
      cases hid
    rw [Option.map_some, this]

end TypeEnv

/-- An expression has a type in an environment. -/
inductive HasType : TypeEnv → Expr → Ty → Prop where
  | int {Γ : TypeEnv} {n : Int64} {s : Span} : HasType Γ (.int n s) .int
  | bool {Γ : TypeEnv} {b : Bool} {s : Span} : HasType Γ (.bool b s) .bool
  | string {Γ : TypeEnv} {text : String} {s : Span} : HasType Γ (.string text s) .string
  | var {Γ : TypeEnv} {x : Ident} {t : Ty} : Γ.get? x.name = some t → HasType Γ (.var x) t
  | lam {Γ : TypeEnv} {x : Ident} {body : Expr} {s : Span} {arg res : Ty} :
      HasType (Γ.insert x.name arg) body res → HasType Γ (.lam x body s) (.fn arg res)
  | app {Γ : TypeEnv} {f a : Expr} {s : Span} {arg res : Ty} :
      HasType Γ f (.fn arg res) → HasType Γ a arg → HasType Γ (.app f a s) res
  | letIn {Γ : TypeEnv} {x : Ident} {value body : Expr} {s : Span} {t res : Ty} :
      HasType Γ value t → HasType (Γ.insert x.name t) body res → HasType Γ (.letIn false x value body s) res
  | letRec {Γ : TypeEnv} {x : Ident} {value body : Expr} {s : Span} {t res : Ty} :
      HasType (Γ.insert x.name t) value t → HasType (Γ.insert x.name t) body res →
        HasType Γ (.letIn true x value body s) res
  | cond {Γ : TypeEnv} {c t e : Expr} {s : Span} {res : Ty} :
      HasType Γ c .bool → HasType Γ t res → HasType Γ e res → HasType Γ (.cond c t e s) res

theorem HasType.congr {Γ Γ' : TypeEnv} {e : Expr} {t : Ty} (h : HasType Γ e t)
    (same : ∀ x, Γ.get? x = Γ'.get? x) : HasType Γ' e t := by
  induction h generalizing Γ' with
  | int => exact .int
  | bool => exact .bool
  | string => exact .string
  | var found => exact .var (same _ ▸ found)
  | lam _ ih => exact .lam (ih (NameMap.get?_insert_congr same _ _))
  | app _ _ ihf iha => exact .app (ihf same) (iha same)
  | letIn _ _ ihv ihb => exact .letIn (ihv same) (ihb (NameMap.get?_insert_congr same _ _))
  | letRec _ _ ihv ihb =>
    exact .letRec (ihv (NameMap.get?_insert_congr same _ _)) (ihb (NameMap.get?_insert_congr same _ _))
  | cond _ _ _ ihc iht ihe => exact .cond (ihc same) (iht same) (ihe same)

end Monolet
