import Typings.TypeRef

/-!
Value types with a fixed spelling in declarations. The numeric ones all become `number`.
-/

namespace Typings

/-- The types that declarations spell with a word of their own. -/
inductive Primitive where
  | void
  | boolean
  | char
  | string
  | byte
  | sbyte
  | int16
  | uint16
  | int32
  | uint32
  | int64
  | uint64
  | single
  | double
  | decimal
  deriving DecidableEq, Repr

namespace Primitive

def names : List (Primitive × String) :=
  [(.void, "Void"), (.boolean, "Boolean"), (.char, "Char"), (.string, "String"), (.byte, "Byte"),
    (.sbyte, "SByte"), (.int16, "Int16"), (.uint16, "UInt16"), (.int32, "Int32"),
    (.uint32, "UInt32"), (.int64, "Int64"), (.uint64, "UInt64"), (.single, "Single"),
    (.double, "Double"), (.decimal, "Decimal")]

def name (p : Primitive) : String := (names.lookup p).getD ""

def ofFullName? (fullName : String) : Option Primitive :=
  (names.find? fun entry => "System." ++ entry.2 = fullName).map Prod.fst

end Primitive

/-- The words that declarations have for primitives. -/
inductive Scalar where
  | void
  | boolean
  | string
  | number
  deriving DecidableEq, Repr

namespace Scalar

def text : Scalar → String
  | .void => "void"
  | .boolean => "boolean"
  | .string => "string"
  | .number => "number"

end Scalar

namespace Primitive

def scalar : Primitive → Scalar
  | .void => .void
  | .boolean => .boolean
  | .char | .string => .string
  | _ => .number

/-- The primitive that a reference names, and whether it is a rank-1 array of it. There are no
arrays of `void`. -/
def ofRef? : TypeRef → Option (Primitive × Bool)
  | .named name [] => (ofFullName? name).map (·, false)
  | .array (.named name []) 1 =>
    (ofFullName? name).bind fun p => if p = .void then none else some (p, true)
  | _ => none

end Primitive

end Typings
