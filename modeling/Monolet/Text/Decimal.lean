/-!
# Decimal text

Numbers are written in base ten without leading zeros and read with any number of them.
Reading takes ASCII digits only, so a sign, a blank or an underscore makes it fail.
-/

namespace Monolet.Decimal

/-- The text of a natural number. -/
def ofNat (n : Nat) : String := n.repr

/-- The text of an integer, with a minus sign in front when it is negative. -/
def ofInt : Int → String
  | .ofNat n => ofNat n
  | .negSucc n => "-" ++ ofNat (n + 1)

/-- The number written by a non-empty run of ASCII digits. -/
def read? (cs : List Char) : Option Nat :=
  if cs ≠ [] ∧ cs.all Char.isDigit then some (Nat.ofDigitChars 10 cs 0) else none

theorem read?_toDigits (n : Nat) : read? (Nat.toDigits 10 n) = some n := by
  have digits : (Nat.toDigits 10 n).all Char.isDigit = true :=
    List.all_eq_true.2 fun _ h => Nat.isDigit_of_mem_toDigits (by decide) (by decide) h
  simp [read?, Nat.toDigits_ne_nil, digits, Nat.ofDigitChars_ten_toDigits]

theorem toList_ofNat (n : Nat) : (ofNat n).toList = Nat.toDigits 10 n := Nat.toList_repr

end Monolet.Decimal
