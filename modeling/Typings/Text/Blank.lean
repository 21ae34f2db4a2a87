/-!
The characters that may surround a type reference: Unicode's White_Space property, which is wider
than `Char.isWhitespace`. The table is the standard's list of 25 code points, as ranges.
-/

namespace Typings

theorem ne_of_class {P : Char → Bool} {c d : Char} (hc : P c = true) (hd : P d = false) :
    c ≠ d := by
  intro h
  rw [h, hd] at hc
  cases hc

namespace Text

/-- Ranges of code points with the White_Space property, both ends included. -/
def blankRanges : List (Nat × Nat) :=
  [(0x09, 0x0D), (0x20, 0x20), (0x85, 0x85), (0xA0, 0xA0), (0x1680, 0x1680), (0x2000, 0x200A),
    (0x2028, 0x2029), (0x202F, 0x202F), (0x205F, 0x205F), (0x3000, 0x3000)]

def inRanges (ranges : List (Nat × Nat)) (n : Nat) : Bool :=
  ranges.any fun r => r.1 ≤ n && n ≤ r.2

/-- A character has the White_Space property. -/
def isBlank (c : Char) : Bool := inRanges blankRanges c.toNat

theorem isBlank_of_isWhitespace {c : Char} (h : c.isWhitespace = true) : isBlank c = true := by
  simp only [Char.isWhitespace, Bool.or_eq_true, decide_eq_true_eq] at h
  rcases h with ((rfl | rfl) | rfl) | rfl <;> decide

end Text

end Typings
