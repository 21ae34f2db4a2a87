import Typings.Text.Unprintable

/-!
Strings as messages show them: in double quotes, with an escape for the quote, the backslash, four
controls and every character that would not be seen as itself.
-/

namespace Typings.Text

def shownEscapes : List (Char × Char) :=
  [('\x00', '0'), ('\t', 't'), ('\r', 'r'), ('\n', 'n'), ('\\', '\\'), ('"', '"')]

/-- A character as it is shown between the quotes; what has no shape of its own is shown by its
code point in hexadecimal. -/
def shownChar (c : Char) : List Char :=
  match shownEscapes.lookup c with
  | some mark => ['\\', mark]
  | none =>
    if isUnprintable c then '\\' :: 'u' :: '\x7b' :: (Nat.toDigits 16 c.toNat ++ ['\x7d']) else [c]

def shown (s : String) : String := String.ofList ('"' :: (s.toList.flatMap shownChar ++ ['"']))

example : shown "é'\"\x01" = "\"é'\\\"\\u\x7b1\x7d\"" := by decide +kernel

end Typings.Text
