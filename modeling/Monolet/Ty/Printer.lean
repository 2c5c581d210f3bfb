import Monolet.Text.Decimal
import Monolet.Ty.Basic

/-!
# Printing types

The arrow associates to the right, so only a function type to the left of an arrow is bracketed. Unknown `n`
is written `u` and then the number.
-/

namespace Monolet

namespace Ty

/-- How an unknown is written. -/
def unknownText (id : Nat) : String := "u" ++ Decimal.ofNat id

/-- Function types, which are bracketed to the left of an arrow. -/
def isFn : Ty → Bool
  | fn .. => true
  | _ => false

/-- The printed form of a type. -/
def print : Ty → String
  | int => "Int"
  | bool => "Bool"
  | string => "String"
  | unknown id => unknownText id
  | fn arg res => (if arg.isFn then "(" ++ arg.print ++ ")" else arg.print) ++ " -> " ++ res.print

end Ty

end Monolet
