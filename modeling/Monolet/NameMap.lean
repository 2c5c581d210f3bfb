/-!
# Maps from names

Typing environments and scopes map names to types and to values. A binding made later hides an earlier one of
the same name.
-/

namespace Monolet

/-- A map from names, as its bindings with the latest in front. -/
structure NameMap (α : Type) where
  bindings : List (String × α) := []

namespace NameMap

variable {α : Type}

/-- What a name is bound to. -/
def get? (m : NameMap α) (name : String) : Option α := m.bindings.lookup name

/-- Bind a name, hiding what it was bound to. -/
def insert (m : NameMap α) (name : String) (a : α) : NameMap α := ⟨(name, a) :: m.bindings⟩

/-- Bind the names of a list one after the other. -/
def ofList (bindings : List (String × α)) : NameMap α :=
  bindings.foldl (fun m (name, a) => m.insert name a) {}

/-- The number of bound names. -/
def size (m : NameMap α) : Nat := (m.bindings.map (·.1)).eraseDups.length

theorem get?_insert (m : NameMap α) (name other : String) (a : α) :
    (m.insert name a).get? other = if other = name then some a else m.get? other := by
  simp only [get?, insert, List.lookup_cons]
  split <;> simp_all

end NameMap

end Monolet
