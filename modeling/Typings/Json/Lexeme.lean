import Typings.Json.Fault

/-!
Blanks and literals of a JSON text. Every reader of this folder reads from the front of a text and
returns what it read with the text left over; the `length` lemmas say that what is left over is
shorter than what there was, which is what ends the loops built on them.
-/

namespace Typings.Json

def isSpace (c : Char) : Bool := c = ' ' || c = '\t' || c = '\n' || c = '\r'

def skipSpace (cs : List Char) : List Char := cs.dropWhile isSpace

theorem length_dropWhile_le (p : Char → Bool) (cs : List Char) :
    (cs.dropWhile p).length ≤ cs.length :=
  (List.dropWhile_sublist p).length_le

theorem length_skipSpace_le (cs : List Char) : (skipSpace cs).length ≤ cs.length :=
  length_dropWhile_le isSpace cs

theorem length_of_skipSpace {cs rest : List Char} {c : Char} (h : skipSpace cs = c :: rest) :
    rest.length < cs.length := by
  have := length_skipSpace_le cs
  rw [h, List.length_cons] at this
  exact this

/-- Reads the given letters, the rest of a literal whose first letter told it apart. -/
def word : (letters : List Char) → List Char → Except Fault (List Char)
  | [], cs => .ok cs
  | _ :: _, [] => .error .endOfValue
  | w :: ws, c :: cs => if c = w then word ws cs else .error .misspelledWord

theorem length_word {ws cs rest : List Char} (h : word ws cs = .ok rest) :
    rest.length + ws.length = cs.length := by
  fun_induction word ws cs with
  | case1 cs => cases h; simp
  | case2 => cases h
  | case3 ws c cs ih => simp only [List.length_cons, ← ih h]; omega
  | case4 => cases h

end Typings.Json
