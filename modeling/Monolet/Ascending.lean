/-!
# Ascending lists as sets

Sets of names and of ids are kept as lists in ascending order without repetitions, so that a set has one
list. `insert` keeps this order, and membership is what one expects of a set (`mem_insert`, `mem_union`,
`mem_remove`).
-/

namespace Monolet.Ascending

variable {α : Type} [DecidableEq α] [LT α] [DecidableLT α]

/-- Put an element in its place, once. -/
def insert (a : α) : List α → List α
  | [] => [a]
  | b :: l => if a = b then b :: l else if a < b then a :: b :: l else b :: insert a l

/-- All elements of both lists. -/
def union (l m : List α) : List α := l.foldr insert m

/-- All elements but one. -/
def remove (a : α) (l : List α) : List α := l.filter (· ≠ a)

@[simp] theorem mem_insert {a b : α} {l : List α} : a ∈ insert b l ↔ a = b ∨ a ∈ l := by
  induction l with
  | nil => simp [insert]
  | cons c l ih => grind [insert]

@[simp] theorem mem_union {a : α} {l m : List α} : a ∈ union l m ↔ a ∈ l ∨ a ∈ m := by
  induction l with
  | nil => simp [union]
  | cons b l ih =>
    have : union (b :: l) m = insert b (union l m) := rfl
    simp [this, ih, or_assoc]

omit [LT α] [DecidableLT α] in
@[simp] theorem mem_remove {a b : α} {l : List α} : a ∈ remove b l ↔ a ∈ l ∧ a ≠ b := by
  simp [remove]

end Monolet.Ascending
