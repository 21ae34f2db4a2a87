import Typings.Json.Lexeme

/-!
Strings of a JSON text: reading their characters, and passing over them.
-/

namespace Typings.Json

def hexValue? (c : Char) : Option Nat :=
  if c.isDigit then some (c.toNat - '0'.toNat)
  else if 'a' ≤ c && c ≤ 'f' then some (c.toNat - 'a'.toNat + 10)
  else if 'A' ≤ c && c ≤ 'F' then some (c.toNat - 'A'.toNat + 10)
  else none

/-- The size of a text in bytes of UTF-8. -/
def byteSize (cs : List Char) : Nat := cs.foldl (fun n c => n + c.utf8Size) 0

/-- Reads four hexadecimal digits. Fewer than four bytes are a text cut off. -/
def hexQuad (cs : List Char) : Except Fault (Nat × List Char) :=
  match cs with
  | a :: b :: c :: d :: rest =>
    match hexValue? a, hexValue? b, hexValue? c, hexValue? d with
    | some a, some b, some c, some d => .ok (((a * 16 + b) * 16 + c) * 16 + d, rest)
    | _, _, _, _ => .error .invalidEscape
  | _ => .error (if byteSize cs < 4 then .endOfString else .invalidEscape)

def isHighSurrogate (n : Nat) : Bool := 0xD800 ≤ n && n ≤ 0xDBFF

def isLowSurrogate (n : Nat) : Bool := 0xDC00 ≤ n && n ≤ 0xDFFF

def surrogatePair (high low : Nat) : Char :=
  Char.ofNat (0x10000 + (high - 0xD800) * 0x400 + (low - 0xDC00))

/-- Reads the second half of a surrogate pair, a whole escape of its own. -/
def lowSurrogate (cs : List Char) : Except Fault (Nat × List Char) :=
  match cs with
  | [] => .error .endOfString
  | c :: cs =>
    if c ≠ '\\' then .error .halfSurrogatePair
    else
      match cs with
      | [] => .error .endOfString
      | c :: cs =>
        if c ≠ 'u' then .error .halfSurrogatePair
        else
          match hexQuad cs with
          | .error fault => .error fault
          | .ok (low, rest) =>
            if isLowSurrogate low then .ok (low, rest) else .error .loneSurrogate

/-- Reads the character of a numeric escape, after its `\u`. -/
def numericEscape (cs : List Char) : Except Fault (Char × List Char) :=
  match hexQuad cs with
  | .error fault => .error fault
  | .ok (n, rest) =>
    if isLowSurrogate n then .error .loneSurrogate
    else if isHighSurrogate n then
      match lowSurrogate rest with
      | .ok (low, rest) => .ok (surrogatePair n low, rest)
      | .error fault => .error fault
    else .ok (Char.ofNat n, rest)

def letterEscapes : List (Char × Char) :=
  [('"', '"'), ('\\', '\\'), ('/', '/'), ('b', '\x08'), ('f', '\x0c'), ('n', '\n'), ('r', '\r'),
    ('t', '\t')]

/-- Reads the character of an escape, after its backslash. -/
def escape : List Char → Except Fault (Char × List Char)
  | [] => .error .endOfString
  | c :: rest =>
    if c = 'u' then numericEscape rest
    else match letterEscapes.lookup c with
      | some d => .ok (d, rest)
      | none => .error .invalidEscape

theorem length_hexQuad {cs rest : List Char} {n : Nat} (h : hexQuad cs = .ok (n, rest)) :
    rest.length < cs.length := by
  unfold hexQuad at h
  split at h
  · split at h
    · cases h; simp only [List.length_cons]; omega
    · cases h
  · cases h

theorem length_lowSurrogate {cs rest : List Char} {n : Nat}
    (h : lowSurrogate cs = .ok (n, rest)) : rest.length < cs.length := by
  unfold lowSurrogate at h
  split at h
  · cases h
  · split at h
    · cases h
    · split at h
      · cases h
      · split at h
        · cases h
        · split at h
          · cases h
          · next hq =>
            split at h
            · cases h
              have := length_hexQuad hq
              simp only [List.length_cons]; omega
            · cases h

theorem length_numericEscape {cs rest : List Char} {c : Char}
    (h : numericEscape cs = .ok (c, rest)) : rest.length < cs.length := by
  unfold numericEscape at h
  split at h
  · cases h
  · next hq =>
    have := length_hexQuad hq
    split at h
    · cases h
    · split at h
      · split at h
        · next hl =>
          obtain ⟨-, rfl⟩ := Prod.mk.inj (Except.ok.inj h)
          have := length_lowSurrogate hl
          omega
        · cases h
      · obtain ⟨-, rfl⟩ := Prod.mk.inj (Except.ok.inj h)
        exact this

theorem length_escape {cs rest : List Char} {c : Char} (h : escape cs = .ok (c, rest)) :
    rest.length < cs.length := by
  unfold escape at h
  split at h
  · cases h
  · split at h
    · have := length_numericEscape h
      simp only [List.length_cons]; omega
    · split at h
      · cases h; simp
      · cases h

def stringBody (cs : List Char) : Except Fault (List Char × List Char) :=
  match cs with
  | [] => .error .endOfString
  | c :: rest =>
    if c = '"' then .ok ([], rest)
    else if c = '\\' then
      match _h : escape rest with
      | .error fault => .error fault
      | .ok (d, rest) =>
        match stringBody rest with
        | .ok (s, rest) => .ok (d :: s, rest)
        | .error fault => .error fault
    else if c.toNat < 0x20 then .error .controlCharacter
    else
      match stringBody rest with
      | .ok (s, rest) => .ok (c :: s, rest)
      | .error fault => .error fault
termination_by cs.length
decreasing_by
  · have := length_escape _h; simp only [List.length_cons]; omega
  · simp

theorem length_stringBody {cs s rest : List Char} (h : stringBody cs = .ok (s, rest)) :
    rest.length < cs.length := by
  fun_induction stringBody cs generalizing s with
  | case2 => cases h; simp
  | case4 _ _ _ he _ _ hs _ ih =>
    cases h
    have := ih hs
    have := length_escape he
    simp only [List.length_cons]; omega
  | case7 _ _ _ _ _ _ _ hs ih =>
    cases h
    have := ih hs
    simp only [List.length_cons]; omega
  | _ => cases h

/-- Passes over the characters of a string and its closing quote. Numeric escapes need be no
characters here. -/
def skipString (cs : List Char) : Except Fault (List Char) :=
  match cs with
  | [] => .error .endOfString
  | c :: rest =>
    if c = '"' then .ok rest
    else if c = '\\' then
      match rest with
      | [] => .error .endOfString
      | e :: rest =>
        if e = 'u' then
          match _h : hexQuad rest with
          | .ok (_, rest) => skipString rest
          | .error fault => .error fault
        else if (letterEscapes.lookup e).isSome then skipString rest
        else .error .invalidEscape
    else if c.toNat < 0x20 then .error .controlCharacter
    else skipString rest
termination_by cs.length
decreasing_by
  · have := length_hexQuad _h; simp only [List.length_cons]; omega
  · simp only [List.length_cons]; omega
  · simp

theorem length_skipString {cs rest : List Char} (h : skipString cs = .ok rest) :
    rest.length < cs.length := by
  fun_induction skipString cs with
  | case2 => cases h; simp
  | case4 _ _ _ hq _ ih =>
    have := ih h
    have := length_hexQuad hq
    simp only [List.length_cons]; omega
  | case6 _ _ _ _ _ ih => have := ih h; simp only [List.length_cons]; omega
  | case9 _ _ _ _ _ ih => have := ih h; simp only [List.length_cons]; omega
  | _ => cases h

end Typings.Json
