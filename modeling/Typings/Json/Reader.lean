import Typings.Json.Skipped

/-!
Typed reading. A `Reader` takes one value of a wanted type off the front of a text, or stops at the
first problem, be it of spelling or of type. Readers of values that hold others are given the number
of bracket levels that may still be opened.
-/

namespace Typings.Json

/-- Levels of brackets that a text may open inside each other, passed-over values apart. -/
def maxLevels : Nat := 127

/-- Takes one value off the front of a text. A value is never empty. -/
structure Reader (α : Type) where
  run : List Char → Except Fault (α × List Char)
  shrinks : ∀ {cs rest : List Char} {a : α}, run cs = .ok (a, rest) → rest.length < cs.length

namespace Reader

variable {α β : Type}

/-- Applies a function to the result of a step, and keeps the text left over. -/
def onValue (f : α → Except Fault β) (r : Except Fault (α × List Char)) :
    Except Fault (β × List Char) :=
  match r with
  | .error fault => .error fault
  | .ok (a, rest) =>
    match f a with
    | .ok b => .ok (b, rest)
    | .error fault => .error fault

theorem onValue_eq_ok {f : α → Except Fault β} {r : Except Fault (α × List Char)} {b : β}
    {rest : List Char} (h : onValue f r = .ok (b, rest)) :
    ∃ a, r = .ok (a, rest) ∧ f a = .ok b := by
  unfold onValue at h
  split at h
  · cases h
  · split at h
    · next hf => cases h; exact ⟨_, rfl, hf⟩
    · cases h

/-- Reads a value and turns it into another, or refuses it. -/
def tryMap (f : α → Except Fault β) (r : Reader α) : Reader β where
  run cs := onValue f (r.run cs)
  shrinks h := by
    obtain ⟨a, ha, -⟩ := onValue_eq_ok h
    exact r.shrinks ha

def map (f : α → β) (r : Reader α) : Reader β := r.tryMap fun a => .ok (f a)

/-- Reads after any blanks, by the first character and the text behind it. -/
def atValue (f : Char → List Char → Except Fault (α × List Char))
    (shrinks : ∀ {c cs rest a}, f c cs = .ok (a, rest) → rest.length ≤ cs.length) : Reader α where
  run cs :=
    match skipSpace cs with
    | [] => .error .endOfValue
    | c :: rest => f c rest
  shrinks h := by
    split at h
    · cases h
    · next heq => exact Nat.lt_of_le_of_lt (shrinks h) (length_of_skipSpace heq)

/-- The value of a whole text, which may end in blanks only. -/
def document (r : (levels : Nat) → Reader α) (text : String) : Except Fault α :=
  match (r maxLevels).run text.toList with
  | .error fault => .error fault
  | .ok (a, rest) => if (skipSpace rest).isEmpty then .ok a else .error .trailingCharacters

end Reader

/-! ## Values of the wrong type -/

def Number.found : Number → Found
  | .integer value => .integer value
  | .float value => .float value

/-- The fault of a value that had to be read first; its own fault comes before. -/
def faultAfter {α : Type} (r : Except Fault α) (f : α → Fault) : Fault :=
  match r with
  | .ok a => f a
  | .error fault => fault

/-- The fault of a value that starts with an unwanted character. Literals, numbers and strings are
read in full before they are refused. -/
def mismatch (wanted : Wanted) (c : Char) (rest : List Char) : Fault :=
  if c = 'n' then faultAfter (word ['u', 'l', 'l'] rest) fun _ => .wrongType .null wanted
  else if c = 't' then
    faultAfter (word ['r', 'u', 'e'] rest) fun _ => .wrongType (.flag true) wanted
  else if c = 'f' then
    faultAfter (word ['a', 'l', 's', 'e'] rest) fun _ => .wrongType (.flag false) wanted
  else if c = '"' then
    faultAfter (stringBody rest) fun s => .wrongType (.text (String.ofList s.1)) wanted
  else if startsNumber c then
    faultAfter (number (c :: rest)) fun n => .wrongType n.1.found wanted
  else if c = Bracket.list.opening then .wrongType .list wanted
  else if c = Bracket.object.opening then .wrongType .object wanted
  else .noValue

/-! ## Values that hold no others -/

/-- A step that reads a literal's letters and then yields a value. -/
def literal {α : Type} (a : α) (letters rest : List Char) : Except Fault (α × List Char) :=
  match word letters rest with
  | .ok rest => .ok (a, rest)
  | .error fault => .error fault

theorem length_literal {α : Type} {a b : α} {letters cs rest : List Char}
    (h : literal a letters cs = .ok (b, rest)) : rest.length ≤ cs.length := by
  unfold literal at h
  split at h
  · next hw => cases h; have := length_word hw; omega
  · cases h

namespace Reader

def text : Reader String :=
  atValue
    (fun c rest =>
      if c = '"' then onValue (fun s => .ok (String.ofList s)) (stringBody rest)
      else .error (mismatch .text c rest))
    (by
      intro c cs rest a h
      split at h
      · obtain ⟨s, hs, -⟩ := onValue_eq_ok h
        exact Nat.le_of_lt (length_stringBody hs)
      · cases h)

def flag : Reader Bool :=
  atValue
    (fun c rest =>
      if c = 't' then literal true ['r', 'u', 'e'] rest
      else if c = 'f' then literal false ['a', 'l', 's', 'e'] rest
      else .error (mismatch .flag c rest))
    (by
      intro c cs rest a h
      split at h
      · exact length_literal h
      · split at h
        · exact length_literal h
        · cases h)

/-- A whole number that fits 32 bits without a sign. -/
def token : Reader UInt32 :=
  atValue
    (fun c rest =>
      if startsNumber c then
        onValue
          (fun n =>
            match n with
            | .integer value =>
              if 0 ≤ value && value < UInt32.size then .ok (UInt32.ofNat value.toNat)
              else .error (.wrongValue n.found .token)
            | .float _ => .error (.wrongType n.found .token))
          (number (c :: rest))
      else .error (mismatch .token c rest))
    (by
      intro c cs rest a h
      split at h
      · obtain ⟨n, hn, -⟩ := onValue_eq_ok h
        exact Nat.le_of_lt_succ (length_number hn)
      · cases h)

def null : Reader Unit :=
  atValue
    (fun c rest =>
      if c = 'n' then literal () ['u', 'l', 'l'] rest else .error (mismatch .nothing c rest))
    (by
      intro c cs rest a h
      split at h
      · exact length_literal h
      · cases h)

def optional {α : Type} (r : Reader α) : Reader (Option α) where
  run cs :=
    if (skipSpace cs).head? = some 'n' then (null.map fun _ => none).run cs
    else (r.map some).run cs
  shrinks h := by
    split at h
    · exact (null.map _).shrinks h
    · exact (r.map some).shrinks h

end Reader

end Typings.Json
