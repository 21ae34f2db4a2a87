import Typings.Decimal.Scaled
import Typings.Json.Lexeme

/-!
Numbers of a JSON text. A whole number within 64 bits is kept exactly; any other number is a double,
made of the leading digits that fit 64 bits and a power of ten.
-/

namespace Typings.Json

/-- A number of a text: whole numbers within 64 bits are kept exactly. -/
inductive Number where
  | integer (value : Int)
  | float (value : Float)

def digitValue (c : Char) : Nat := c.toNat - '0'.toNat

/-- Appends digits to a significand for as long as it fits 64 bits; the second part holds the digits
that no longer fit. -/
def absorb (significand : Nat) : List Char → Nat × List Char
  | [] => (significand, [])
  | d :: ds =>
    let next := significand * 10 + digitValue d
    if next < UInt64.size then absorb next ds else (significand, d :: ds)

def floatOf (negative : Bool) (significand : Nat) (exponent : Int) : Except Fault Number :=
  match Decimal.scaled? significand exponent with
  | some x => .ok (.float (if negative then -x else x))
  | none => .error .numberOutOfRange

/-- A whole number without point or exponent. Negative zero and what is too small for 64 bits are
floats. -/
def wholeNumber (negative : Bool) (significand : Nat) : Number :=
  if !negative then .integer significand
  else if 0 < significand && Int64.minValue.toInt ≤ -significand then .integer (-significand)
  else .float (-significand.toUInt64.toFloat)

/-- The largest exponent that is taken as a number; larger ones only decide between zero and no
number at all. -/
def maxExponent : Nat := Int32.maxValue.toInt.toNat

/-- A number whose written exponent is added to the one its digits have. -/
def withExponent (negative : Bool) (significand : Nat) (exponent : Int) (down : Bool)
    (written : Nat) : Except Fault Number :=
  if written ≤ maxExponent then
    floatOf negative significand (if down then exponent - written else exponent + written)
  else if significand ≠ 0 && !down then .error .numberOutOfRange
  else .ok (.float (if negative then -0.0 else 0.0))

def digitsValue (ds : List Char) : Nat := ds.foldl (fun n d => n * 10 + digitValue d) 0

/-- A sign in front of digits, if there is one, and the text after it; `true` stands for minus. -/
def signed (cs : List Char) : Bool × List Char :=
  match cs with
  | c :: rest => if c = '-' then (true, rest) else if c = '+' then (false, rest) else (false, cs)
  | [] => (false, cs)

/-- Reads the exponent of a number, after its mark. -/
def exponentPart (negative : Bool) (significand : Nat) (exponent : Int) (cs : List Char) :
    Except Fault (Number × List Char) :=
  let down := (signed cs).1
  let digits := (signed cs).2.takeWhile Char.isDigit
  let rest := (signed cs).2.dropWhile Char.isDigit
  if digits.isEmpty then .error (if rest.isEmpty then .endOfValue else .invalidNumber)
  else (withExponent negative significand exponent down (digitsValue digits)).map (·, rest)

def afterFraction (negative : Bool) (significand : Nat) (exponent : Int) (cs : List Char) :
    Except Fault (Number × List Char) :=
  match cs with
  | c :: rest =>
    if c = 'e' || c = 'E' then exponentPart negative significand exponent rest
    else (floatOf negative significand exponent).map (·, cs)
  | [] => (floatOf negative significand exponent).map (·, cs)

def fractionPart (negative : Bool) (significand dropped : Nat) (cs : List Char) :
    Except Fault (Number × List Char) :=
  let digits := cs.takeWhile Char.isDigit
  let rest := cs.dropWhile Char.isDigit
  if digits.isEmpty then .error (if rest.isEmpty then .endOfValue else .invalidNumber)
  else
    let (significand, left) := absorb significand digits
    afterFraction negative significand ((dropped : Int) + left.length - digits.length) rest

/-- Reads what may follow the whole part of a number, of which `dropped` digits did not fit. -/
def afterWhole (negative : Bool) (significand dropped : Nat) (cs : List Char) :
    Except Fault (Number × List Char) :=
  match cs with
  | c :: rest =>
    if c = '.' then fractionPart negative significand dropped rest
    else if c = 'e' || c = 'E' then exponentPart negative significand dropped rest
    else if dropped = 0 then .ok (wholeNumber negative significand, cs)
    else (floatOf negative significand dropped).map (·, cs)
  | [] =>
    if dropped = 0 then .ok (wholeNumber negative significand, cs)
    else (floatOf negative significand dropped).map (·, cs)

/-- Reads a number without its sign. -/
def magnitude (negative : Bool) (cs : List Char) : Except Fault (Number × List Char) :=
  match cs with
  | [] => .error .endOfValue
  | c :: rest =>
    if c = '0' then
      if (rest.head?.any Char.isDigit) then .error .invalidNumber
      else afterWhole negative 0 0 rest
    else if c.isDigit then
      let (significand, left) := absorb 0 (cs.takeWhile Char.isDigit)
      afterWhole negative significand left.length (cs.dropWhile Char.isDigit)
    else .error .invalidNumber

def number (cs : List Char) : Except Fault (Number × List Char) :=
  match cs with
  | '-' :: rest => magnitude true rest
  | _ => magnitude false cs

def startsNumber (c : Char) : Bool := c = '-' || c.isDigit

theorem length_signed_le (cs : List Char) : (signed cs).2.length ≤ cs.length := by
  unfold signed
  split
  · repeat' split
    all_goals simp
  · exact Nat.le_refl _

theorem rest_of_map {r : Except Fault Number} {cs rest : List Char} {n : Number}
    (h : r.map (·, cs) = .ok (n, rest)) : rest = cs := by
  cases r with
  | error => cases h
  | ok => cases h; rfl

theorem length_exponentPart {negative : Bool} {m : Nat} {e : Int} {cs rest : List Char} {n : Number}
    (h : exponentPart negative m e cs = .ok (n, rest)) : rest.length ≤ cs.length := by
  simp only [exponentPart] at h
  split at h
  · cases h
  · rw [rest_of_map h]
    exact Nat.le_trans (length_dropWhile_le _ _) (length_signed_le cs)

theorem length_afterFraction {negative : Bool} {m : Nat} {e : Int} {cs rest : List Char}
    {n : Number} (h : afterFraction negative m e cs = .ok (n, rest)) :
    rest.length ≤ cs.length := by
  unfold afterFraction at h
  split at h
  · split at h
    · have := length_exponentPart h
      simp only [List.length_cons]; omega
    · exact Nat.le_of_eq (congrArg List.length (rest_of_map h))
  · exact Nat.le_of_eq (congrArg List.length (rest_of_map h))

theorem length_fractionPart {negative : Bool} {m dropped : Nat} {cs rest : List Char}
    {n : Number} (h : fractionPart negative m dropped cs = .ok (n, rest)) :
    rest.length ≤ cs.length := by
  unfold fractionPart at h
  simp only at h
  split at h
  · cases h
  · exact Nat.le_trans (length_afterFraction h) (length_dropWhile_le _ _)

theorem length_afterWhole {negative : Bool} {m dropped : Nat} {cs rest : List Char}
    {n : Number} (h : afterWhole negative m dropped cs = .ok (n, rest)) :
    rest.length ≤ cs.length := by
  unfold afterWhole at h
  split at h
  · split at h
    · have := length_fractionPart h
      simp only [List.length_cons]; omega
    · split at h
      · have := length_exponentPart h
        simp only [List.length_cons]; omega
      · split at h
        · cases h; exact Nat.le_refl _
        · exact Nat.le_of_eq (congrArg List.length (rest_of_map h))
  · split at h
    · cases h; exact Nat.le_refl _
    · exact Nat.le_of_eq (congrArg List.length (rest_of_map h))

theorem length_magnitude {negative : Bool} {cs rest : List Char} {n : Number}
    (h : magnitude negative cs = .ok (n, rest)) : rest.length < cs.length := by
  unfold magnitude at h
  split at h
  · cases h
  · next c tail =>
    split at h
    · split at h
      · cases h
      · have := length_afterWhole h
        simp only [List.length_cons]; omega
    · split at h
      · next hd =>
        have := length_afterWhole h
        rw [List.dropWhile_cons_of_pos hd] at this
        have := length_dropWhile_le Char.isDigit tail
        simp only [List.length_cons]; omega
      · cases h

theorem length_number {cs rest : List Char} {n : Number} (h : number cs = .ok (n, rest)) :
    rest.length < cs.length := by
  unfold number at h
  split at h
  · have := length_magnitude h
    simp only [List.length_cons]; omega
  · exact length_magnitude h

/-! ## Passing over a number -/

def skipExponent (cs : List Char) : Except Fault (List Char) :=
  match cs with
  | c :: rest =>
    if c = 'e' || c = 'E' then
      if (signed rest).2.head?.any Char.isDigit then .ok ((signed rest).2.dropWhile Char.isDigit)
      else .error .invalidNumber
    else .ok cs
  | [] => .ok cs

def skipFraction (cs : List Char) : Except Fault (List Char) :=
  match cs with
  | c :: rest =>
    if c = '.' then
      if rest.head?.any Char.isDigit then skipExponent (rest.dropWhile Char.isDigit)
      else .error .invalidNumber
    else skipExponent cs
  | [] => .ok cs

/-- Passes over a number without its sign. Only its spelling matters, so a number cut off is a
misspelled one and none is out of range. -/
def skipMagnitude (cs : List Char) : Except Fault (List Char) :=
  match cs with
  | [] => .error .invalidNumber
  | c :: rest =>
    if c = '0' then
      if rest.head?.any Char.isDigit then .error .invalidNumber else skipFraction rest
    else if c.isDigit then skipFraction (rest.dropWhile Char.isDigit)
    else .error .invalidNumber

def skipNumber (cs : List Char) : Except Fault (List Char) :=
  match cs with
  | '-' :: rest => skipMagnitude rest
  | _ => skipMagnitude cs

theorem length_skipExponent {cs rest : List Char} (h : skipExponent cs = .ok rest) :
    rest.length ≤ cs.length := by
  unfold skipExponent at h
  split at h
  · next c tail =>
    split at h
    · split at h
      · cases h
        have := length_dropWhile_le Char.isDigit (signed tail).2
        have := length_signed_le tail
        simp only [List.length_cons]; omega
      · cases h
    · cases h; exact Nat.le_refl _
  · cases h; exact Nat.le_refl _

theorem length_skipFraction {cs rest : List Char} (h : skipFraction cs = .ok rest) :
    rest.length ≤ cs.length := by
  unfold skipFraction at h
  split at h
  · next c tail =>
    split at h
    · split at h
      · have := length_skipExponent h
        have := length_dropWhile_le Char.isDigit tail
        simp only [List.length_cons]; omega
      · cases h
    · exact length_skipExponent h
  · cases h; exact Nat.le_refl _

theorem length_skipMagnitude {cs rest : List Char} (h : skipMagnitude cs = .ok rest) :
    rest.length < cs.length := by
  unfold skipMagnitude at h
  split at h
  · cases h
  · next c tail =>
    split at h
    · split at h
      · cases h
      · have := length_skipFraction h
        simp only [List.length_cons]; omega
    · split at h
      · have := length_skipFraction h
        have := length_dropWhile_le Char.isDigit tail
        simp only [List.length_cons]; omega
      · cases h

theorem length_skipNumber {cs rest : List Char} (h : skipNumber cs = .ok rest) :
    rest.length < cs.length := by
  unfold skipNumber at h
  split at h
  · have := length_skipMagnitude h
    simp only [List.length_cons]; omega
  · exact length_skipMagnitude h

end Typings.Json
