import Monolet.Ty.Printer

/-!
# Substitutions

A substitution records solutions of unknowns: finitely many entries `id ↦ type`, in ascending order of the
ids. The types may mention other unknowns with entries of their own; `apply` follows such chains to their
ends.

Following entries ends when no unknown is reached from its own entry. `apply` therefore follows at most as
many entries in a row as there are, which is all of them when there is no such cycle. `insert` refuses a
solution in which the unknown reappears once its type is resolved.
-/

namespace Monolet

/-- Solutions of unknowns, by ascending id. -/
structure Subst where
  entries : List (Nat × Ty) := []
  ascending : entries.Pairwise fun a b => a.1 < b.1 := by simp
deriving DecidableEq

/-- An unknown would be solved by a type that resolves to one with the unknown in it. -/
structure CyclicSolution where
  id : Nat
  ty : Ty

/-- The message for a refused solution. -/
def CyclicSolution.message (c : CyclicSolution) : String :=
  "cyclic solution " ++ Ty.unknownText c.id ++ " = " ++ c.ty.print

namespace Subst

/-- No solutions yet. -/
def empty : Subst := {}

/-- The entry of an unknown, as it was recorded. -/
def get? (σ : Subst) (id : Nat) : Option Ty := σ.entries.lookup id

/-- The number of entries. -/
def size (σ : Subst) : Nat := σ.entries.length

/-- Put an entry in its place, instead of one with the same id. -/
def setEntry (id : Nat) (ty : Ty) : List (Nat × Ty) → List (Nat × Ty)
  | [] => [(id, ty)]
  | (k, s) :: l =>
    if id < k then (id, ty) :: (k, s) :: l
    else if id = k then (id, ty) :: l
    else (k, s) :: setEntry id ty l

theorem fst_of_mem_setEntry {id : Nat} {ty : Ty} {l : List (Nat × Ty)} {p : Nat × Ty}
    (h : p ∈ setEntry id ty l) : p.1 = id ∨ p ∈ l := by
  induction l with
  | nil => simp_all [setEntry]
  | cons e l ih => grind [setEntry]

theorem pairwise_setEntry {id : Nat} {ty : Ty} {l : List (Nat × Ty)}
    (h : l.Pairwise fun a b => a.1 < b.1) : (setEntry id ty l).Pairwise fun a b => a.1 < b.1 := by
  induction l with
  | nil => simp [setEntry]
  | cons e l ih =>
    obtain ⟨k, s⟩ := e
    have tail := List.pairwise_cons.1 h
    rw [setEntry]
    split
    · rename_i lt
      refine List.pairwise_cons.2 ⟨fun p hp => ?_, h⟩
      rcases List.mem_cons.1 hp with rfl | hp
      · exact lt
      · exact Nat.lt_trans lt (tail.1 p hp)
    · split
      · rename_i eq
        exact List.pairwise_cons.2 ⟨fun p hp => eq ▸ tail.1 p hp, tail.2⟩
      · refine List.pairwise_cons.2 ⟨fun p hp => ?_, ih tail.2⟩
        rcases fst_of_mem_setEntry hp with hp | hp
        · simp only; omega
        · exact tail.1 p hp

/-- Record an entry, instead of one that the unknown may have. -/
def set (σ : Subst) (id : Nat) (ty : Ty) : Subst :=
  ⟨setEntry id ty σ.entries, pairwise_setEntry σ.ascending⟩

/-- The type of an unknown after at most `n` entries in a row were followed. -/
def follow (σ : Subst) : Nat → Nat → Ty
  | 0, id => .unknown id
  | n + 1, id =>
    match σ.get? id with
    | some ty => ty.subst (σ.follow n)
    | none => .unknown id

/-- Resolve all unknowns of a type that have solutions. -/
def apply (σ : Subst) (ty : Ty) : Ty := ty.subst (σ.follow σ.size)

/-- Record a solution, unless the unknown occurs in its resolved type. -/
def insert (σ : Subst) (id : Nat) (ty : Ty) : Except CyclicSolution Subst :=
  if (σ.apply ty).mentions id then .error ⟨id, ty⟩ else .ok (σ.set id ty)

/-- The solutions of a list, recorded one after the other. -/
def ofList (entries : List (Nat × Ty)) : Except CyclicSolution Subst :=
  entries.foldlM (fun σ (id, ty) => σ.insert id ty) empty

/-- The text of one entry. -/
def entryText : Nat × Ty → String
  | (id, ty) => Ty.unknownText id ++ " ↦ " ++ ty.print

/-- The entries in braces. -/
def print (σ : Subst) : String :=
  if σ.entries.isEmpty then "\x7b\x7d"
  else "\x7b " ++ ", ".intercalate (σ.entries.map entryText) ++ " \x7d"

end Subst

end Monolet
