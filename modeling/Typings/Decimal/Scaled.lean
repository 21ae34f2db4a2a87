/-!
A double from a whole significand and a power of ten, by one multiplication or division of doubles:
the power is exact up to `10 ^ 22` and the nearest double beyond, so the result may differ from
correct rounding in its last place. Powers past `10 ^ 308` are divided out in steps.
-/

namespace Typings.Decimal

/-- The largest power of ten that a double holds. -/
def maxPower : Nat := 308

def power (n : Nat) : Float := Float.ofScientific 1 false n

/-- Divides by a power of ten, in steps of at most `maxPower`. -/
def divided (x : Float) (n : Nat) : Float :=
  if n ≤ maxPower then x / power n
  else if x == 0 then x
  else divided (x / power maxPower) (n - maxPower)
termination_by n
decreasing_by simp only [maxPower] at *; omega

/-- The double for `significand * 10 ^ exponent`, or nothing when it is beyond the largest one. -/
def scaled? (significand : Nat) (exponent : Int) : Option Float :=
  let x := significand.toUInt64.toFloat
  if exponent < 0 then some (divided x (-exponent).toNat)
  else if exponent.toNat ≤ maxPower then
    let y := x * power exponent.toNat
    if y.isInf then none else some y
  else if significand = 0 then some x
  else none

end Typings.Decimal
