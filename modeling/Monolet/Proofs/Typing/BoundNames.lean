import Mathlib
import Monolet.Proofs.Typing.Renaming

/-!
# Inference does not depend on the names of binders

Two expressions are alike up to the names of their binders when they have the same shape and each pair of variables in
them refers to binders in the same place, or to the same name outside (`Expr.AlphaEq`). Inference walks such expressions
in step. The environments along the way bind other names, and some names in one hide what is still seen in the other, but
names that refer to the same binder have the same type (`TypeEnv.Matches`). Everything else that inference looks at is
the same, down to the numbers of the unknowns; only the places that errors point to are not.

A binder that is given a name that occurs nowhere leaves the expression the same in this sense (`alphaEq_renameBinder`).
-/

namespace Monolet

/-! ## Expressions up to the names of binders -/

namespace Expr

/-- The binders that two expressions stand below, in pairs, the innermost pair first. -/
abbrev Binders := List (String × String)

/-- Two names refer to the binders of one pair, or both are free and the same. -/
inductive Paired : Binders → String → String → Prop where
  | free {x : String} : Paired [] x x
  | here {binders : Binders} {x y : String} : Paired ((x, y) :: binders) x y
  | outer {binders : Binders} {x y a b : String} (left : x ≠ a) (right : y ≠ b) (paired : Paired binders x y) :
      Paired ((a, b) :: binders) x y

/-- The same expression up to spans and the names of binders. -/
inductive AlphaEq : Binders → Expr → Expr → Prop where
  | int {binders : Binders} {n : Int64} {s s' : Span} : AlphaEq binders (.int n s) (.int n s')
  | bool {binders : Binders} {b : Bool} {s s' : Span} : AlphaEq binders (.bool b s) (.bool b s')
  | string {binders : Binders} {text : String} {s s' : Span} : AlphaEq binders (.string text s) (.string text s')
  | var {binders : Binders} {x y : Ident} : Paired binders x.name y.name → AlphaEq binders (.var x) (.var y)
  | lam {binders : Binders} {x y : Ident} {body body' : Expr} {s s' : Span} :
      AlphaEq ((x.name, y.name) :: binders) body body' → AlphaEq binders (.lam x body s) (.lam y body' s')
  | app {binders : Binders} {f f' a a' : Expr} {s s' : Span} :
      AlphaEq binders f f' → AlphaEq binders a a' → AlphaEq binders (.app f a s) (.app f' a' s')
  | letIn {binders : Binders} {x y : Ident} {value value' body body' : Expr} {s s' : Span} :
      AlphaEq binders value value' → AlphaEq ((x.name, y.name) :: binders) body body' →
        AlphaEq binders (.letIn false x value body s) (.letIn false y value' body' s')
  | letRec {binders : Binders} {x y : Ident} {value value' body body' : Expr} {s s' : Span} :
      AlphaEq ((x.name, y.name) :: binders) value value' → AlphaEq ((x.name, y.name) :: binders) body body' →
        AlphaEq binders (.letIn true x value body s) (.letIn true y value' body' s')
  | cond {binders : Binders} {c c' t t' e e' : Expr} {s s' : Span} :
      AlphaEq binders c c' → AlphaEq binders t t' → AlphaEq binders e e' →
        AlphaEq binders (.cond c t e s) (.cond c' t' e' s')

/-! ## Renaming a binder -/

/-- All names of variables and binders. -/
def allNames : Expr → List String
  | int .. | bool .. | string .. => []
  | var x => [x.name]
  | lam x body _ => x.name :: body.allNames
  | app f a _ => f.allNames ++ a.allNames
  | letIn _ x value body _ => x.name :: (value.allNames ++ body.allNames)
  | cond c t e _ => c.allNames ++ (t.allNames ++ e.allNames)

/-- Put a name in place of another one where that is free. -/
def renameFree (x y : String) : Expr → Expr
  | int n s => int n s
  | bool b s => bool b s
  | string text s => string text s
  | var z => if z.name = x then var ⟨y, z.span⟩ else var z
  | lam z body s => lam z (if z.name = x then body else body.renameFree x y) s
  | app f a s => app (f.renameFree x y) (a.renameFree x y) s
  | letIn false z value body s =>
    letIn false z (value.renameFree x y) (if z.name = x then body else body.renameFree x y) s
  | letIn true z value body s =>
    letIn true z (if z.name = x then value else value.renameFree x y)
      (if z.name = x then body else body.renameFree x y) s
  | cond c t e s => cond (c.renameFree x y) (t.renameFree x y) (e.renameFree x y) s

/-- Rename the outermost binder. -/
def renameBinder (y : String) : Expr → Expr
  | lam x body s => lam ⟨y, x.span⟩ (body.renameFree x.name y) s
  | letIn false x value body s => letIn false ⟨y, x.span⟩ value (body.renameFree x.name y) s
  | letIn true x value body s => letIn true ⟨y, x.span⟩ (value.renameFree x.name y) (body.renameFree x.name y) s
  | e => e

variable {binders : Binders} {x y z : String} {e : Expr}

theorem Paired.under (a : String) (h : z ≠ a → Paired binders z z) : Paired ((a, a) :: binders) z z := by
  by_cases eq : z = a
  · exact eq ▸ .here
  · exact .outer eq eq (h eq)

theorem alphaEq_self (h : ∀ z ∈ e.allNames, Paired binders z z) : AlphaEq binders e e := by
  have under (a : String) {names : List String} {binders : Binders} (h : ∀ z ∈ names, Paired binders z z) :
      ∀ z ∈ names, Paired ((a, a) :: binders) z z := fun z hz => .under a fun _ => h z hz
  induction e generalizing binders with
  | int => exact .int
  | bool => exact .bool
  | string => exact .string
  | var x => exact .var (h x.name (List.mem_singleton.2 rfl))
  | lam x body _ ih =>
    obtain ⟨-, inBody⟩ := List.forall_mem_cons.1 h
    exact .lam (ih (under x.name inBody))
  | app f a _ ihf iha =>
    obtain ⟨function, argument⟩ := List.forall_mem_append.1 h
    exact .app (ihf function) (iha argument)
  | letIn recursive x value body _ ihv ihb =>
    obtain ⟨-, parts⟩ := List.forall_mem_cons.1 h
    obtain ⟨inValue, inBody⟩ := List.forall_mem_append.1 parts
    cases recursive with
    | false => exact .letIn (ihv inValue) (ihb (under x.name inBody))
    | true => exact .letRec (ihv (under x.name inValue)) (ihb (under x.name inBody))
  | cond c t e _ ihc iht ihe =>
    obtain ⟨condition, branches⟩ := List.forall_mem_append.1 h
    obtain ⟨yes, no⟩ := List.forall_mem_append.1 branches
    exact .cond (ihc condition) (iht yes) (ihe no)

/-- One name is paired with another, and all names but these two with themselves. -/
structure Paired.Moves (binders : Binders) (x y : String) : Prop where
  moved : Paired binders x y
  others : ∀ z, z ≠ x → z ≠ y → Paired binders z z

theorem Paired.Moves.under (h : Moves binders x y) (hx : z ≠ x) (hy : z ≠ y) : Moves ((z, z) :: binders) x y :=
  ⟨.outer hx.symm hy.symm h.moved, fun w wx wy => .under z fun _ => h.others w wx wy⟩

/-- Below one more binder, there is something to rename unless the binder hides the name. -/
theorem Paired.Moves.alphaEq_below (h : Moves binders x y) (fresh : y ∉ e.allNames) (other : y ≠ z)
    (renamed : Moves ((z, z) :: binders) x y → AlphaEq ((z, z) :: binders) e (e.renameFree x y)) :
    AlphaEq ((z, z) :: binders) e (if z = x then e else e.renameFree x y) := by
  split
  · rename_i eq
    subst eq
    exact alphaEq_self fun w hw => .under z fun ne => h.others w ne fun eq => fresh (eq ▸ hw)
  · rename_i ne
    exact renamed (h.under ne other.symm)

/-- The new name must not occur at all, so that no binder can catch it. -/
theorem alphaEq_renameFree (fresh : y ∉ e.allNames) (h : Paired.Moves binders x y) :
    AlphaEq binders e (e.renameFree x y) := by
  induction e generalizing binders with
  | int => exact .int
  | bool => exact .bool
  | string => exact .string
  | var z =>
    have other : z.name ≠ y := fun eq => fresh (List.mem_singleton.2 eq.symm)
    rw [renameFree]
    split
    · rename_i eq
      exact .var (eq ▸ h.moved)
    · rename_i ne
      exact .var (h.others z.name ne other)
  | lam z body _ ih =>
    simp only [allNames, List.mem_cons, not_or] at fresh
    exact .lam (h.alphaEq_below fresh.2 fresh.1 (ih fresh.2))
  | app f a _ ihf iha =>
    simp only [allNames, List.mem_append, not_or] at fresh
    exact .app (ihf fresh.1 h) (iha fresh.2 h)
  | letIn recursive z value body _ ihv ihb =>
    simp only [allNames, List.mem_cons, List.mem_append, not_or] at fresh
    obtain ⟨other, inValue, inBody⟩ := fresh
    have body := h.alphaEq_below inBody other (ihb inBody)
    cases recursive with
    | false => exact .letIn (ihv inValue h) body
    | true => exact .letRec (h.alphaEq_below inValue other (ihv inValue)) body
  | cond c t e _ ihc iht ihe =>
    simp only [allNames, List.mem_append, not_or] at fresh
    exact .cond (ihc fresh.1 h) (iht fresh.2.1 h) (ihe fresh.2.2 h)

/-- Renaming a binder to a name that does not occur leaves the expression the same up to the names of binders. -/
theorem alphaEq_renameBinder (fresh : y ∉ e.allNames) : AlphaEq [] e (e.renameBinder y) := by
  have moves (x : String) : Paired.Moves [(x, y)] x y := ⟨.here, fun z zx zy => .outer zx zy .free⟩
  cases e with
  | lam x body s =>
    simp only [allNames, List.mem_cons, not_or] at fresh
    exact .lam (alphaEq_renameFree fresh.2 (moves x.name))
  | letIn recursive x value body s =>
    simp only [allNames, List.mem_cons, List.mem_append, not_or] at fresh
    obtain ⟨-, inValue, inBody⟩ := fresh
    have body := alphaEq_renameFree inBody (moves x.name)
    cases recursive with
    | false => exact .letIn (alphaEq_self fun _ _ => .free) body
    | true => exact .letRec (alphaEq_renameFree inValue (moves x.name)) body
  | _ => exact alphaEq_self fun _ _ => .free

end Expr

/-- Two environments give the same type to names that are paired, or both give none and the names are the same. -/
def TypeEnv.Matches (binders : Expr.Binders) (Γ Γ' : TypeEnv) : Prop :=
  ∀ x y, Expr.Paired binders x y → Γ.get? x = Γ'.get? y ∧ (Γ.get? x = none → x = y)

namespace TypeEnv.Matches

variable {binders : Expr.Binders} {Γ Γ' : TypeEnv}

theorem refl (Γ : TypeEnv) : TypeEnv.Matches [] Γ Γ := by
  intro x y paired
  cases paired
  exact ⟨rfl, fun _ => rfl⟩

theorem insert (h : TypeEnv.Matches binders Γ Γ') (a b : String) (t : Ty) :
    TypeEnv.Matches ((a, b) :: binders) (Γ.insert a t) (Γ'.insert b t) := by
  intro x y paired
  rw [NameMap.get?_insert, NameMap.get?_insert]
  cases paired with
  | here =>
    rw [if_pos rfl, if_pos rfl]
    exact ⟨rfl, fun none => by cases none⟩
  | outer left right paired =>
    rw [if_neg left, if_neg right]
    exact h x y paired

end TypeEnv.Matches

/-! ## Errors without their places -/

/-- The error without its place. -/
def TypeError.erase : TypeError → TypeError
  | unknownVariable name _ => unknownVariable name {}
  | unification error _ => unification error {}

namespace Check

variable {α β : Type}

/-- The check, with the places taken out of its errors. -/
def placeless (x : Check TypeError α) : Check TypeError α := x.adaptExcept TypeError.erase

@[simp] theorem placeless_pure (a : α) : (pure a : Check TypeError α).placeless = pure a := rfl

@[simp] theorem placeless_fresh : (fresh : Check TypeError Ty).placeless = fresh := rfl

@[simp] theorem placeless_zonk (t : Ty) : (zonk t : Check TypeError Ty).placeless = zonk t := rfl

@[simp] theorem placeless_bind (x : Check TypeError α) (f : α → Check TypeError β) :
    (x >>= f).placeless = x.placeless >>= fun a => (f a).placeless := by
  funext s
  simp only [placeless, EStateM.adaptExcept, bind, EStateM.bind]
  cases x s <;> rfl

@[simp] theorem placeless_unifyAt (span : Span) (l r : Ty) : (unifyAt span l r).placeless = unifyAt {} l r := by
  funext s
  simp only [placeless, unifyAt, EStateM.adaptExcept]
  cases unify l r s <;> rfl

theorem outcome_placeless (x : Check TypeError α) (s : CheckState) :
    x.placeless.outcome s = (x.outcome s).mapError TypeError.erase := by
  rw [outcome, outcome, placeless, EStateM.adaptExcept]
  cases x s <;> rfl

/-! ## Inference -/

theorem infer_placeless {binders : Expr.Binders} {e e' : Expr} (h : Expr.AlphaEq binders e e')
    {Γ Γ' : TypeEnv} (env : TypeEnv.Matches binders Γ Γ') : (infer Γ e).placeless = (infer Γ' e').placeless := by
  induction h generalizing Γ Γ' with
  | int | bool | string => rfl
  | @var binders x y paired =>
    obtain ⟨same, free⟩ := env x.name y.name paired
    rw [infer, infer, ← same]
    cases found : Γ.get? x.name with
    | some t => rfl
    | none =>
      rw [free found]
      rfl
  | lam _ ih =>
    simp only [infer, placeless_bind, placeless_fresh, placeless_pure]
    refine bind_congr fun arg => ?_
    rw [ih (env.insert _ _ arg)]
  | app _ _ ihf iha =>
    simp only [infer, placeless_bind, placeless_fresh, placeless_pure, placeless_unifyAt]
    rw [ihf env, iha env]
  | letIn _ _ ihv ihb =>
    simp only [infer, placeless_bind, placeless_zonk]
    rw [ihv env]
    refine bind_congr fun raw => bind_congr fun ty => ihb (env.insert _ _ ty)
  | letRec _ _ ihv ihb =>
    simp only [infer, placeless_bind, placeless_fresh, placeless_zonk, placeless_unifyAt]
    refine bind_congr fun placeholder => ?_
    rw [ihv (env.insert _ _ placeholder)]
    refine bind_congr fun raw => bind_congr fun _ => bind_congr fun ty => ihb (env.insert _ _ ty)
  | cond _ _ _ ihc iht ihe =>
    simp only [infer, placeless_bind, placeless_zonk, placeless_unifyAt]
    rw [ihc env, iht env, ihe env]

end Check

/-- **Names of binders do not matter.** Inference returns the same for expressions that are the same up to the names of
their binders: the same type with the same unknowns, or the same error but for its place. -/
theorem Expr.infer_alphaEq {e e' : Expr} (h : AlphaEq [] e e') (Γ : TypeEnv) :
    (e.infer Γ).mapError TypeError.erase = (e'.infer Γ).mapError TypeError.erase := by
  have same : (Check.infer Γ e >>= Check.zonk).placeless = (Check.infer Γ e' >>= Check.zonk).placeless := by
    rw [Check.placeless_bind, Check.placeless_bind, Check.infer_placeless h (.refl Γ)]
  rw [infer_eq_outcome, infer_eq_outcome, ← Check.outcome_placeless, ← Check.outcome_placeless, same]

namespace Expr

/-- `\x -> \f -> let r = f (g x) in \y -> r` under other names, with a place for `g`. -/
def keepsResult (x f r y : String) (place : Span) : Expr :=
  .lam ⟨x, {}⟩
    (.lam ⟨f, {}⟩
      (.letIn false ⟨r, {}⟩ (.app (.var ⟨f, {}⟩) (.app (.var ⟨"g", place⟩) (.var ⟨x, {}⟩) {}) {})
        (.lam ⟨y, {}⟩ (.var ⟨r, {}⟩) {}) {}) {}) {}

/-- The names `x` and `f` are exchanged. Then the first expression hides its `f` by the argument of the last lambda, and
the second one by the result. -/
theorem infer_alphaEq_exchanged :
    AlphaEq [] (keepsResult "x" "f" "r" "f" {}) (keepsResult "f" "x" "f" "y" ⟨⟨1, 2⟩, ⟨1, 3⟩⟩) ∧
      (keepsResult "x" "f" "r" "f" {}).infer ⟨[("g", .fn .int .bool)]⟩ =
        .ok (.fn .int (.fn (.fn .bool (.unknown 4)) (.fn (.unknown 5) (.unknown 4)))) ∧
      ((keepsResult "f" "x" "f" "y" ⟨⟨1, 2⟩, ⟨1, 3⟩⟩).infer ⟨[("g", .fn .int .bool)]⟩).mapError TypeError.erase =
        .ok (.fn .int (.fn (.fn .bool (.unknown 4)) (.fn (.unknown 5) (.unknown 4)))) ∧
      (keepsResult "x" "f" "r" "f" {}).infer {} = .error (.unknownVariable "g" {}) ∧
      ((keepsResult "f" "x" "f" "y" ⟨⟨1, 2⟩, ⟨1, 3⟩⟩).infer {}).mapError TypeError.erase =
        .error (.unknownVariable "g" {}) := by
  have apart {a b : String} (ne : (a == b) = false) : a ≠ b := beq_eq_false_iff_ne.1 ne
  have outside : Paired [("f", "x"), ("x", "f")] "g" "g" :=
    .outer (apart rfl) (apart rfl) (.outer (apart rfl) (apart rfl) .free)
  have argument : Paired [("f", "x"), ("x", "f")] "x" "f" := .outer (apart rfl) (apart rfl) .here
  have result : Paired [("f", "y"), ("r", "f"), ("f", "x"), ("x", "f")] "r" "f" := .outer (apart rfl) (apart rfl) .here
  have alike : AlphaEq [] (keepsResult "x" "f" "r" "f" {}) (keepsResult "f" "x" "f" "y" ⟨⟨1, 2⟩, ⟨1, 3⟩⟩) :=
    .lam (.lam (.letIn (.app (.var .here) (.app (.var outside) (.var argument))) (.lam (.var result))))
  have found : (keepsResult "x" "f" "r" "f" {}).infer ⟨[("g", .fn .int .bool)]⟩ =
      .ok (.fn .int (.fn (.fn .bool (.unknown 4)) (.fn (.unknown 5) (.unknown 4)))) := by cbv
  have failed : (keepsResult "x" "f" "r" "f" {}).infer {} = .error (.unknownVariable "g" {}) := by cbv
  have same := infer_alphaEq alike ⟨[("g", .fn .int .bool)]⟩
  have same' := infer_alphaEq alike {}
  rw [found] at same
  rw [failed] at same'
  exact ⟨alike, found, same.symm, failed, same'.symm⟩

end Expr

end Monolet
