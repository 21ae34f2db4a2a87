import Typings.Config

/-!
The indentation as it is given on a command line: `tab` in any case, or a width from 1 to 16 in
decimal, with an optional plus sign and any number of leading zeros. The width is counted in 8 bits,
and a number that outgrows them on the way is none.
-/

namespace Typings.Indent

structure Invalid where
  text : String
  deriving DecidableEq, Repr

def Invalid.message (e : Invalid) : String :=
  "expected `tab` or a width between 1 and 16, got `" ++ e.text ++ "`"

def maxWidth : UInt8 := 16

/-- Ten times a number and a further one, unless the product or the sum takes more than 8 bits. -/
def tenfoldPlus? (n d : UInt8) : Option UInt8 :=
  if n.toBitVec.umulOverflow 10 || (n * 10).toBitVec.uaddOverflow d.toBitVec then none
  else some (n * 10 + d)

/-- The number with one more digit behind it. -/
def withDigit? (n : UInt8) (c : Char) : Option UInt8 :=
  if c.isDigit then tenfoldPlus? n (.ofNat (c.toNat - '0'.toNat)) else none

/-- The text after an optional plus sign. -/
def unsigned (cs : List Char) : List Char := if cs.head? = some '+' then cs.tail else cs

def width? (cs : List Char) : Option UInt8 :=
  let digits := unsigned cs
  if digits.isEmpty then none else digits.foldlM withDigit? 0

def ofText (s : String) : Except Invalid Indent :=
  if s.toList.map Char.toLower = ['t', 'a', 'b'] then .ok .tab
  else
    match width? s.toList with
    | some width =>
      if 1 ≤ width && width ≤ maxWidth then .ok (.spaces width.toNat) else .error ⟨s⟩
    | none => .error ⟨s⟩

example : ofText "TAB" = .ok .tab ∧ ofText "+0016" = .ok (.spaces 16) ∧
    ofText "272" = .error ⟨"272"⟩ ∧ ofText "+" = .error ⟨"+"⟩ := by
  exact ⟨rfl, rfl, rfl, rfl⟩

end Typings.Indent
