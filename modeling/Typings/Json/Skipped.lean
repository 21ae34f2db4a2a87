import Typings.Json.Number
import Typings.Json.Text

/-!
Passing over a value of any shape, however deeply nested. The brackets still open are kept on a
list, so that the depth of the value does not matter.
-/

namespace Typings.Json

/-- The two kinds of values that hold others. -/
inductive Bracket where
  | list
  | object
  deriving DecidableEq, Repr

namespace Bracket

def opening : Bracket → Char
  | .list => '['
  | .object => '\x7b'

def closing : Bracket → Char
  | .list => ']'
  | .object => '\x7d'

/-- The fault of a text that ends inside. -/
def cutOff : Bracket → Fault
  | .list => .endOfList
  | .object => .endOfObject

/-- The fault of a value followed by neither a comma nor the closing bracket. -/
def noSeparator : Bracket → Fault
  | .list => .noListSeparator
  | .object => .noObjectSeparator

end Bracket

def colon (cs : List Char) : Except Fault (List Char) :=
  match skipSpace cs with
  | [] => .error .endOfObject
  | c :: rest => if c = ':' then .ok rest else .error .noColon

theorem length_colon {cs rest : List Char} (h : colon cs = .ok rest) :
    rest.length < cs.length := by
  unfold colon at h
  split at h
  · cases h
  · next heq =>
    split at h
    · cases h; exact length_of_skipSpace heq
    · cases h

/-- Passes over what stands in front of the next value inside a bracket: nothing in a list, a key
and its colon in an object. -/
def skipLabel (b : Bracket) (cs : List Char) : Except Fault (List Char) :=
  match b with
  | .list => .ok cs
  | .object =>
    match skipSpace cs with
    | [] => .error .endOfObject
    | c :: rest =>
      if c = '"' then
        match skipString rest with
        | .ok rest => colon rest
        | .error fault => .error fault
      else .error .keyNotString

theorem length_skipLabel {b : Bracket} {cs rest : List Char} (h : skipLabel b cs = .ok rest) :
    rest.length ≤ cs.length := by
  unfold skipLabel at h
  split at h
  · cases h; exact Nat.le_refl _
  · split at h
    · cases h
    · next heq =>
      have := length_of_skipSpace heq
      split at h
      · split at h
        · next hs =>
          have := length_skipString hs
          have := length_colon h
          omega
        · cases h
      · cases h

/-- Passes over a value that holds no others. -/
def skipScalar (c : Char) (rest : List Char) : Except Fault (List Char) :=
  if c = 'n' then word ['u', 'l', 'l'] rest
  else if c = 't' then word ['r', 'u', 'e'] rest
  else if c = 'f' then word ['a', 'l', 's', 'e'] rest
  else if c = '"' then skipString rest
  else if startsNumber c then skipNumber (c :: rest)
  else .error .noValue

theorem length_skipScalar {c : Char} {cs rest : List Char} (h : skipScalar c cs = .ok rest) :
    rest.length ≤ cs.length := by
  unfold skipScalar at h
  split at h
  · have := length_word h; omega
  · split at h
    · have := length_word h; omega
    · split at h
      · have := length_word h; omega
      · split at h
        · exact Nat.le_of_lt (length_skipString h)
        · split at h
          · exact Nat.le_of_lt_succ (length_skipNumber h)
          · cases h

/-- Where a text that is being passed over has been read up to. -/
inductive Place where
  | value
  | opened (b : Bracket)
  | after

/-- A step that reads nothing leads from an opening bracket to the value behind it. -/
def Place.rank : Place → Nat
  | .opened _ => 1
  | .value | .after => 0

/-- Passes over the rest of a value, of which the given brackets are still open. -/
def skip (place : Place) (outer : List Bracket) (cs : List Char) : Except Fault (List Char) :=
  match place with
  | .value =>
    match _h : skipSpace cs with
    | [] => .error .endOfValue
    | c :: rest =>
      if c = Bracket.list.opening then skip (.opened .list) outer rest
      else if c = Bracket.object.opening then skip (.opened .object) outer rest
      else
        match _hs : skipScalar c rest with
        | .ok rest => skip .after outer rest
        | .error fault => .error fault
  | .opened b =>
    match _h : skipSpace cs with
    | [] => .error b.cutOff
    | c :: rest =>
      if c = b.closing then skip .after outer rest
      else
        match _hl : skipLabel b cs with
        | .ok rest => skip .value (b :: outer) rest
        | .error fault => .error fault
  | .after =>
    match outer with
    | [] => .ok cs
    | b :: outer =>
      match _h : skipSpace cs with
      | [] => .error b.cutOff
      | c :: rest =>
        if c = b.closing then skip .after outer rest
        else if c = ',' then
          match _hl : skipLabel b rest with
          | .ok rest => skip .value (b :: outer) rest
          | .error fault => .error fault
        else .error b.noSeparator
termination_by (cs.length, place.rank)
decreasing_by
  · exact .left _ _ (length_of_skipSpace _h)
  · exact .left _ _ (length_of_skipSpace _h)
  · have := length_of_skipSpace _h
    have := length_skipScalar _hs
    exact .left _ _ (by omega)
  · exact .left _ _ (length_of_skipSpace _h)
  · have := length_skipLabel _hl
    simp only [Place.rank, Prod.lex_def]
    omega
  · exact .left _ _ (length_of_skipSpace _h)
  · have := length_of_skipSpace _h
    have := length_skipLabel _hl
    exact .left _ _ (by omega)

theorem length_skip {place : Place} {outer : List Bracket} {cs rest : List Char}
    (h : skip place outer cs = .ok rest) : rest.length ≤ cs.length := by
  fun_induction skip place outer cs with
  | case1 | case5 | case6 | case9 | case11 | case14 | case15 => cases h
  | case2 _ _ _ heq ih => exact Nat.le_of_lt (Nat.lt_of_le_of_lt (ih h) (length_of_skipSpace heq))
  | case3 _ _ _ heq _ ih =>
    exact Nat.le_of_lt (Nat.lt_of_le_of_lt (ih h) (length_of_skipSpace heq))
  | case4 _ _ _ _ heq _ _ _ hs ih =>
    have := ih h
    have := length_of_skipSpace heq
    have := length_skipScalar hs
    omega
  | case7 _ _ _ _ heq ih =>
    exact Nat.le_of_lt (Nat.lt_of_le_of_lt (ih h) (length_of_skipSpace heq))
  | case8 _ _ _ _ _ _ _ _ hl ih => exact Nat.le_trans (ih h) (length_skipLabel hl)
  | case10 => cases h; exact Nat.le_refl _
  | case12 _ _ _ _ heq ih =>
    exact Nat.le_of_lt (Nat.lt_of_le_of_lt (ih h) (length_of_skipSpace heq))
  | case13 _ _ _ _ _ hl heq _ ih =>
    have := ih h
    have := length_of_skipSpace heq
    have := length_skipLabel hl
    omega

def skipValue (cs : List Char) : Except Fault (List Char) := skip .value [] cs

theorem length_skipValue {cs rest : List Char} (h : skipValue cs = .ok rest) :
    rest.length < cs.length := by
  unfold skipValue skip at h
  split at h
  · cases h
  · next heq =>
    have := length_of_skipSpace heq
    split at h
    · exact Nat.lt_of_le_of_lt (length_skip h) this
    · split at h
      · exact Nat.lt_of_le_of_lt (length_skip h) this
      · split at h
        · next hs =>
          have := length_skip h
          have := length_skipScalar hs
          omega
        · cases h

end Typings.Json
