import Typings.Json.Skipped

/-! # The grammar of JSON

    value  := 'null' | 'true' | 'false' | number | string
            | '[' blank* ']' | '[' item (',' item)* ']'
            | '{' blank* '}' | '{' member (',' member)* '}'
    item   := blank* value blank*
    member := blank* string blank* ':' item
    string := '"' piece* '"'
    number := '-'? whole ('.' digit+)? (('e' | 'E') ('+' | '-')? digit+)?
    whole  := '0' | one or more digits, the first of which is not '0'

A `Tree` is a derivation of `value`: it holds what was chosen at every rule, the blanks and the
spelling of every string and number included, so it spells one text. What a string or a number
stands for is read off its derivation (`Piece.text?`, `Numeral.Writes`).
-/
namespace Typings.Json

/-! ## Blanks, strings and numbers -/

structure Blanks where
  chars : List Char
  all_space : ∀ c ∈ chars, isSpace c = true

def Blanks.none : Blanks := ⟨[], nofun⟩

/-- A hexadecimal digit and the number that it stands for. -/
structure HexDigit where
  char : Char
  value : Nat
  value_eq : hexValue? char = some value

/-- The four digits of a numeric escape. -/
structure Quad where
  first : HexDigit
  second : HexDigit
  third : HexDigit
  fourth : HexDigit

namespace Quad

def chars (q : Quad) : List Char := [q.first.char, q.second.char, q.third.char, q.fourth.char]

def value (q : Quad) : Nat :=
  ((q.first.value * 16 + q.second.value) * 16 + q.third.value) * 16 + q.fourth.value

end Quad

/-- An escape by four digits starts as no escape by a letter does. -/
theorem ne_u_of_lookup {mark meaning : Char} (h : letterEscapes.lookup mark = some meaning) :
    mark ≠ 'u' := by
  rintro rfl
  have hnone : letterEscapes.lookup 'u' = none := rfl
  rw [hnone] at h
  cases h

/-- What stands between the quotes of a string, piece by piece. -/
inductive Piece where
  | plain (c : Char) (quote : c ≠ '"') (backslash : c ≠ '\\') (control : ¬ c.toNat < 0x20)
  | letter (mark meaning : Char) (h : letterEscapes.lookup mark = some meaning)
  | unit (q : Quad)
  | pair (high low : Quad) (hhigh : isHighSurrogate high.value = true)
      (hlow : isLowSurrogate low.value = true)

namespace Piece

def chars : Piece → List Char
  | .plain c .. => [c]
  | .letter mark .. => ['\\', mark]
  | .unit q => '\\' :: 'u' :: q.chars
  | .pair high low .. => '\\' :: 'u' :: (high.chars ++ '\\' :: 'u' :: low.chars)

/-- The character that a piece stands for; half of a surrogate pair stands for none. -/
def meaning? : Piece → Option Char
  | .plain c .. => some c
  | .letter _ meaning _ => some meaning
  | .unit q =>
    if isLowSurrogate q.value || isHighSurrogate q.value then none else some (Char.ofNat q.value)
  | .pair high low .. => some (surrogatePair high.value low.value)

/-- The pieces of a string with its closing quote. -/
def body : List Piece → List Char
  | [] => ['"']
  | p :: ps => p.chars ++ body ps

/-- The characters that the pieces of a string stand for, if all of them do. -/
def meanings? : List Piece → Option (List Char)
  | [] => some []
  | p :: ps =>
    match p.meaning?, meanings? ps with
    | some c, some cs => some (c :: cs)
    | _, _ => none

/-- The text that the pieces of a string stand for. -/
def text? (ps : List Piece) : Option String := (meanings? ps).map String.ofList

end Piece

structure Digits where
  chars : List Char
  ne_nil : chars ≠ []
  all_digit : ∀ c ∈ chars, c.isDigit = true

def Digits.value (d : Digits) : Nat := digitsValue d.chars

structure Exponent where
  mark : Char
  mark_eq : mark = 'e' ∨ mark = 'E'
  sign : List Char
  sign_eq : sign = [] ∨ sign = ['+'] ∨ sign = ['-']
  digits : Digits

def Exponent.chars (e : Exponent) : List Char := e.mark :: (e.sign ++ e.digits.chars)

structure Numeral where
  negative : Bool
  whole : Digits
  leading_zero : whole.chars = ['0'] ∨ whole.chars.head? ≠ some '0'
  fraction : Option Digits
  exponent : Option Exponent

namespace Numeral

def fractionChars (n : Numeral) : List Char :=
  match n.fraction with
  | none => []
  | some digits => '.' :: digits.chars

def exponentChars (n : Numeral) : List Char :=
  match n.exponent with
  | none => []
  | some exponent => exponent.chars

/-- The numeral without its sign. -/
def unsigned (n : Numeral) : List Char := n.whole.chars ++ (n.fractionChars ++ n.exponentChars)

def chars (n : Numeral) : List Char := if n.negative then '-' :: n.unsigned else n.unsigned

/-- A numeral without point and exponent writes a whole number. Negative zero is none. -/
structure Writes (n : Numeral) (value : Int) : Prop where
  no_fraction : n.fraction = none
  no_exponent : n.exponent = none
  value_eq : value = if n.negative then -(n.whole.value : Int) else n.whole.value
  nonzero : n.negative = true → n.whole.value ≠ 0

end Numeral

/-! ## Values -/

mutual

/-- A derivation of `value`; the blanks inside of a bracket stand in front of everything else. -/
inductive Tree where
  | null
  | flag (value : Bool)
  | number (n : Numeral)
  | text (pieces : List Piece)
  | list (inner : Blanks) (items : List Item)
  | object (inner : Blanks) (members : List Member)

inductive Item where
  | mk (lead : Blanks) (value : Tree) (trail : Blanks)

inductive Member where
  | mk (lead : Blanks) (key : List Piece) (gap : Blanks) (item : Item)

end

namespace Item

def lead : Item → Blanks
  | .mk lead _ _ => lead

def value : Item → Tree
  | .mk _ value _ => value

def trail : Item → Blanks
  | .mk _ _ trail => trail

end Item

namespace Member

/-- The key of a member, as the text that its string stands for. -/
def key? : Member → Option String
  | .mk _ key _ _ => Piece.text? key

def value : Member → Tree
  | .mk _ _ _ item => item.value

end Member

/-- What separates a value from the one in front of it. -/
def comma : (first : Bool) → List Char
  | true => []
  | false => [',']

mutual

def Tree.chars : Tree → List Char
  | .null => ['n', 'u', 'l', 'l']
  | .flag true => ['t', 'r', 'u', 'e']
  | .flag false => ['f', 'a', 'l', 's', 'e']
  | .number n => n.chars
  | .text pieces => '"' :: Piece.body pieces
  | .list inner items => '[' :: (inner.chars ++ Item.charsFrom true items)
  | .object inner members => '\x7b' :: (inner.chars ++ Member.charsFrom true members)

def Item.chars : Item → List Char
  | .mk lead value trail => lead.chars ++ (value.chars ++ trail.chars)

def Member.chars : Member → List Char
  | .mk lead key gap item =>
    lead.chars ++ '"' :: (Piece.body key ++ (gap.chars ++ ':' :: item.chars))

/-- The items of a list that are still to come, up to the closing bracket. -/
def Item.charsFrom (first : Bool) : List Item → List Char
  | [] => [']']
  | item :: items => comma first ++ (item.chars ++ Item.charsFrom false items)

/-- The members of an object that are still to come, up to the closing bracket. -/
def Member.charsFrom (first : Bool) : List Member → List Char
  | [] => ['\x7d']
  | member :: members => comma first ++ (member.chars ++ Member.charsFrom false members)

end

/-! ## Where the parts end -/

variable {cs rest : List Char} {c : Char}

theorem skipSpace_blanks (b : Blanks) (cs : List Char) :
    skipSpace (b.chars ++ cs) = skipSpace cs :=
  List.dropWhile_append_of_pos b.all_space

theorem skipSpace_cons (h : isSpace c = false) : skipSpace (c :: cs) = c :: cs :=
  List.dropWhile_cons_of_neg (Bool.eq_false_iff.mp h)

/-- The text does not go on with a digit. -/
def NoDigit (rest : List Char) : Prop := ∀ c ∈ rest.head?, c.isDigit = false

namespace Digits

variable (d : Digits)

theorem exists_chars : ∃ c cs, d.chars = c :: cs ∧ c.isDigit = true := by
  obtain ⟨c, cs, hcs⟩ := List.exists_cons_of_ne_nil d.ne_nil
  exact ⟨c, cs, hcs, d.all_digit c (hcs ▸ List.mem_cons_self)⟩

theorem takeWhile_append (h : NoDigit rest) :
    (d.chars ++ rest).takeWhile Char.isDigit = d.chars := by
  rw [List.takeWhile_append_of_pos d.all_digit]
  cases rest with
  | nil => exact List.append_nil d.chars
  | cons c rest => rw [List.takeWhile_cons_of_neg (by simp [h c rfl]), List.append_nil]

theorem dropWhile_append (h : NoDigit rest) : (d.chars ++ rest).dropWhile Char.isDigit = rest := by
  rw [List.dropWhile_append_of_pos d.all_digit]
  cases rest with
  | nil => rfl
  | cons c rest => rw [List.dropWhile_cons_of_neg (by simp [h c rfl])]

end Digits

namespace Numeral

theorem exists_unsigned (n : Numeral) : ∃ c cs, n.unsigned = c :: cs ∧ c.isDigit = true := by
  obtain ⟨c, cs, hcs, hc⟩ := n.whole.exists_chars
  exact ⟨c, cs ++ (n.fractionChars ++ n.exponentChars), by rw [unsigned, hcs]; rfl, hc⟩

theorem whole_eq_zero (n : Numeral) (h : n.whole.chars.head? = some '0') : n.whole.chars = ['0'] :=
  n.leading_zero.resolve_right fun hne => hne h

theorem exists_chars (n : Numeral) : ∃ c cs, n.chars = c :: cs ∧ startsNumber c = true := by
  rw [chars]
  split
  · exact ⟨'-', n.unsigned, rfl, by decide⟩
  · obtain ⟨c, cs, hcs, hc⟩ := n.exists_unsigned
    exact ⟨c, cs, hcs, by rw [startsNumber, hc, Bool.or_true]⟩

end Numeral

/-- The text is at its end, or it goes on with one of the characters. -/
def StartsIn (marks rest : List Char) : Prop := ∀ c ∈ rest.head?, c ∈ marks

theorem StartsIn.of_class {marks : List Char} (h : StartsIn marks rest) {P : Char → Bool}
    (hP : marks.any P = false) : ∀ c ∈ rest.head?, P c = false :=
  fun c hc => Bool.eq_false_iff.mpr (List.any_eq_false.mp hP c (h c hc))

/-- What may follow a value. -/
def delimiters : List Char := [' ', '\t', '\n', '\r', ',', ']', '\x7d']

abbrev Delimited (rest : List Char) : Prop := StartsIn delimiters rest

theorem Delimited.noDigit (h : Delimited rest) : NoDigit rest := h.of_class (by decide)

theorem Numeral.startsIn_exponent (n : Numeral) (h : Delimited rest) :
    StartsIn ('e' :: 'E' :: delimiters) (n.exponentChars ++ rest) := by
  rw [exponentChars]
  cases n.exponent with
  | none => exact fun c hc => List.mem_cons_of_mem _ (List.mem_cons_of_mem _ (h c hc))
  | some e =>
    intro c hc
    cases hc
    rcases e.mark_eq with he | he <;> rw [he] <;> decide

theorem Numeral.startsIn_fraction (n : Numeral) (h : Delimited rest) :
    StartsIn ('.' :: 'e' :: 'E' :: delimiters) (n.fractionChars ++ (n.exponentChars ++ rest)) := by
  rw [fractionChars]
  cases n.fraction with
  | none => exact fun c hc => List.mem_cons_of_mem _ (n.startsIn_exponent h c hc)
  | some d =>
    intro c hc
    cases hc
    decide

theorem mem_delimiters_of_isSpace (h : isSpace c = true) : c ∈ delimiters := by
  simp only [isSpace, Bool.or_eq_true, decide_eq_true_eq] at h
  rcases h with ((rfl | rfl) | rfl) | rfl <;> decide

theorem isSpace_of_not_mem_delimiters (h : c ∉ delimiters) : isSpace c = false :=
  Bool.eq_false_iff.mpr fun hc => h (mem_delimiters_of_isSpace hc)

theorem Delimited.blanks (h : Delimited rest) (b : Blanks) : Delimited (b.chars ++ rest) := by
  obtain ⟨cs, hcs⟩ := b
  cases cs with
  | nil => exact h
  | cons c cs =>
    intro d hd
    cases hd
    exact mem_delimiters_of_isSpace (hcs c List.mem_cons_self)

/-- No value begins like something that may follow a value. -/
theorem Tree.exists_chars (t : Tree) : ∃ c cs, t.chars = c :: cs ∧ c ∉ delimiters := by
  cases t with
  | null => exact ⟨_, _, rfl, by decide⟩
  | flag value => cases value <;> exact ⟨_, _, rfl, by decide⟩
  | number n =>
    obtain ⟨c, cs, hcs, hc⟩ := n.exists_chars
    refine ⟨c, cs, hcs, fun h => ?_⟩
    have hnone : delimiters.any startsNumber = false := by decide
    exact List.any_eq_false.mp hnone c h hc
  | text pieces => exact ⟨_, _, rfl, by decide⟩
  | list inner items => exact ⟨_, _, rfl, by decide⟩
  | object inner members => exact ⟨_, _, rfl, by decide⟩

/-- Only null begins like null. -/
theorem Tree.head?_ne {t : Tree} (ht : t ≠ .null) (rest : List Char) :
    (t.chars ++ rest).head? ≠ some 'n' := by
  cases t with
  | null => exact absurd rfl ht
  | flag value => cases value <;> exact of_decide_eq_true rfl
  | number n =>
    obtain ⟨c, cs, hcs, hc⟩ := n.exists_chars
    rw [Tree.chars, hcs]
    intro h
    cases h
    exact absurd hc (by decide)
  | text | list | object =>
    intro h
    cases h

theorem skipSpace_tree (t : Tree) (rest : List Char) :
    skipSpace (t.chars ++ rest) = t.chars ++ rest := by
  obtain ⟨c, cs, hcs, hc⟩ := t.exists_chars
  rw [hcs, List.cons_append, skipSpace_cons (isSpace_of_not_mem_delimiters hc)]

theorem Item.delimited_charsFrom (items : List Item) (rest : List Char) :
    Delimited (Item.charsFrom false items ++ rest) := by
  cases items with
  | nil => intro c hc; cases hc; decide
  | cons item items => intro c hc; cases hc; decide

theorem Member.delimited_charsFrom (members : List Member) (rest : List Char) :
    Delimited (Member.charsFrom false members ++ rest) := by
  cases members with
  | nil => intro c hc; cases hc; decide
  | cons member members => intro c hc; cases hc; decide

end Typings.Json
