/-!
The shortest decimal of a binary floating-point number: the coarsest power-of-ten grid that has a
point among the reals rounding to the number, and on that grid the point nearest to it. All
comparisons are exact, on natural numbers.
-/

namespace Typings.Decimal

/-- The number `significand * 10 ^ exponent`, by its significant digits. -/
structure Digits where
  significand : Nat
  exponent : Int
  deriving DecidableEq, Repr

/-- Which of two equally near grid points is taken. -/
inductive Tie where
  | upper
  | even
  deriving DecidableEq, Repr

/-- A positive double `mantissa * 2 ^ exponent`; `narrow` tells that its lower neighbour is half as
far away as its upper one. -/
structure Binary where
  mantissa : Nat
  exponent : Int
  narrow : Bool
  deriving DecidableEq, Repr

namespace Binary

/-- The magnitude that 64 bits of a finite double stand for. -/
def ofBits (bits : UInt64) : Binary :=
  let fraction : Nat := (bits &&& 0xFFFFFFFFFFFFF).toNat
  let biased : Nat := (bits >>> 52 &&& 0x7FF).toNat
  if biased = 0 then ⟨fraction, -1074, false⟩
  else ⟨fraction + 0x10000000000000, (biased : Int) - 1075, fraction = 0 && biased ≠ 1⟩

/-- Numerator and denominator of a quarter of the last place, in units of `10 ^ grid`. -/
def quarter (b : Binary) (grid : Int) : Nat × Nat :=
  let twos := b.exponent - 2
  (Nat.pow 2 twos.toNat * Nat.pow 10 (-grid).toNat,
    Nat.pow 2 (-twos).toNat * Nat.pow 10 grid.toNat)

/-- The point of the grid `10 ^ grid` nearest to the number, if one rounds to the number. The ends
of the rounding interval belong to it when the mantissa is even. -/
def nearest? (tie : Tie) (b : Binary) (grid : Int) : Option Nat :=
  let (num, den) := b.quarter grid
  let value := 4 * b.mantissa * num
  let low := (4 * b.mantissa - if b.narrow then 1 else 2) * num
  let high := (4 * b.mantissa + 2) * num
  let inside (n : Nat) : Bool :=
    if b.mantissa % 2 = 0 then low ≤ n * den && n * den ≤ high
    else low < n * den && n * den < high
  let below := value / den
  let above := below + 1
  if inside below then
    if inside above then
      let down := value - below * den
      let up := above * den - value
      if down < up then some below
      else if up < down then some above
      else match tie with
        | .upper => some above
        | .even => some (if below % 2 = 0 then below else above)
    else some below
  else if inside above then some above
  else none

/-- The shortest decimal that rounds to the number, found on the coarsest grid that has one. -/
def shortest (tie : Tie) (b : Binary) : Digits :=
  let grids := (List.range 640).map fun (i : Nat) => (309 : Int) - (i : Int)
  (grids.findSome? fun grid => (b.nearest? tie grid).map fun n => ⟨n, grid⟩).getD ⟨0, 0⟩

end Binary

def isNegative (x : Float) : Bool := x.toBits >>> 63 = 1

def zeros (n : Nat) : String := String.ofList (List.replicate n '0')

/-- Digits with the point after the first `front` of them. -/
def pointed (digits : String) (front : Nat) : String :=
  String.ofList (digits.toList.take front ++ '.' :: digits.toList.drop front)

/-- Positional notation: no exponent mark, no point in a whole number. -/
def Digits.positional (d : Digits) : String :=
  let digits := toString d.significand
  let front := (digits.length : Int) + d.exponent
  if 0 ≤ d.exponent then digits ++ zeros d.exponent.toNat
  else if 0 < front then pointed digits front.toNat
  else "0." ++ zeros (-front).toNat ++ digits

def exponentText (exponent : Int) : String :=
  (if exponent < 0 then "e-" else "e+") ++ toString exponent.natAbs

/-- Notation with at least one digit after the point, positional for magnitudes from `10 ^ -5` up
to `10 ^ 16` and with an exponent beyond. -/
def Digits.general (d : Digits) : String :=
  let digits := toString d.significand
  let front := (digits.length : Int) + d.exponent
  if 0 ≤ d.exponent && front ≤ 16 then digits ++ zeros d.exponent.toNat ++ ".0"
  else if 0 < front && front ≤ 16 then pointed digits front.toNat
  else if -5 < front && front ≤ 0 then "0." ++ zeros (-front).toNat ++ digits
  else (if digits.length = 1 then digits else pointed digits 1) ++ exponentText (front - 1)

example : Digits.general ⟨12, 15⟩ = "1.2e+16" ∧ Digits.general ⟨12, 14⟩ = "1200000000000000.0" ∧
    Digits.general ⟨1, -5⟩ = "0.00001" ∧ Digits.general ⟨15, -7⟩ = "1.5e-6" := by decide +kernel

/-- A finite double in positional notation, with the fewest digits that read back as it. -/
def plain (x : Float) : String :=
  let magnitude :=
    if x == 0 then "0" else ((Binary.ofBits x.toBits).shortest .upper).positional
  if isNegative x then "-" ++ magnitude else magnitude

/-- A finite double in general notation, with the fewest digits that read back as it. -/
def general (x : Float) : String :=
  let magnitude :=
    if x == 0 then "0.0" else ((Binary.ofBits x.toBits).shortest .even).general
  if isNegative x then "-" ++ magnitude else magnitude

end Typings.Decimal
