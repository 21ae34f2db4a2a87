import Typings.Decimal.Shortest
import Typings.Text.Quoted

/-!
The value of a literal field, and the text an enum declares it with.
-/

namespace Typings

/-- A constant: a truth value, a whole number of 64 bits with or without a sign, a double or a
string. -/
inductive Constant where
  | bool (value : Bool)
  | int (value : Int64)
  | uint (value : UInt64)
  | float (value : Float)
  | string (value : String)
  deriving Inhabited

namespace Constant

def text : Constant → String
  | .bool value => if value then "true" else "false"
  | .int value => toString value.toInt
  | .uint value => toString value.toNat
  | .float value => Decimal.plain value
  | .string value => Text.quoted value

end Constant

end Typings
