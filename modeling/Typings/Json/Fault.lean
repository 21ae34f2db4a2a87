import Typings.Decimal.Shortest
import Typings.Text.Shown
import Typings.TypeRef.Reading

/-!
Everything that can be wrong with a manifest, as causes: the text ends early, it is not JSON, or the
JSON does not hold what a manifest holds. Each cause has one message and one category.
-/

namespace Typings.Json

inductive Category where
  /-- The text ends before the value does. -/
  | cutOff
  /-- The text is not JSON. -/
  | malformed
  /-- The JSON is not what was wanted at its place. -/
  | mismatched
  deriving DecidableEq, Repr

inductive Wanted where
  | text
  | flag
  | list
  | token
  | nothing
  | record (title : String)
  deriving DecidableEq, Repr

inductive Found where
  | null
  | flag (value : Bool)
  | integer (value : Int)
  | float (value : Float)
  | text (value : String)
  | list
  | object

inductive Fault where
  | endOfValue
  | endOfString
  | endOfList
  | endOfObject
  | noValue
  | misspelledWord
  | invalidNumber
  | numberOutOfRange
  | invalidEscape
  | loneSurrogate
  | halfSurrogatePair
  | controlCharacter
  | keyNotString
  | noColon
  | noListSeparator
  | noObjectSeparator
  | trailingComma
  | trailingCharacters
  | tooDeep
  | missingField (key : String)
  | duplicateField (key : String)
  | wrongType (found : Found) (wanted : Wanted)
  | wrongValue (found : Found) (wanted : Wanted)
  /-- An array stops before the required field of this index; `fields` is their whole number. -/
  | tooShort (length : Nat) (title : String) (fields : Nat)
  | unknownVariant (name : String) (known : List String)
  | notConstant
  | badReference (error : TypeRef.SyntaxError)

/-- A word between backticks. -/
def ticked (s : String) : String := "`" ++ s ++ "`"

namespace Wanted

def message : Wanted → String
  | .text => "a string"
  | .flag => "a boolean"
  | .list => "a sequence"
  | .token => "u32"
  | .nothing => "unit"
  | .record title => "struct " ++ title

end Wanted

namespace Found

def message : Found → String
  | .null => "null"
  | .flag value => "boolean " ++ ticked (toString value)
  | .integer value => "integer " ++ ticked (toString value)
  | .float value => "floating point " ++ ticked (Decimal.general value)
  | .text value => "string " ++ Text.shown value
  | .list => "sequence"
  | .object => "map"

end Found

namespace Fault

def category : Fault → Category
  | .endOfValue | .endOfString | .endOfList | .endOfObject => .cutOff
  | .missingField _ | .duplicateField _ | .wrongType .. | .wrongValue .. | .tooShort ..
  | .unknownVariant .. | .notConstant | .badReference _ => .mismatched
  | _ => .malformed

def message : Fault → String
  | .endOfValue => "EOF while parsing a value"
  | .endOfString => "EOF while parsing a string"
  | .endOfList => "EOF while parsing a list"
  | .endOfObject => "EOF while parsing an object"
  | .noValue => "expected value"
  | .misspelledWord => "expected ident"
  | .invalidNumber => "invalid number"
  | .numberOutOfRange => "number out of range"
  | .invalidEscape => "invalid escape"
  | .loneSurrogate => "lone leading surrogate in hex escape"
  | .halfSurrogatePair => "unexpected end of hex escape"
  | .controlCharacter => "control character (\\u0000-\\u001F) found while parsing a string"
  | .keyNotString => "key must be a string"
  | .noColon => "expected `:`"
  | .noListSeparator => "expected `,` or `]`"
  | .noObjectSeparator => "expected `,` or `\x7d`"
  | .trailingComma => "trailing comma"
  | .trailingCharacters => "trailing characters"
  | .tooDeep => "recursion limit exceeded"
  | .missingField key => "missing field " ++ ticked key
  | .duplicateField key => "duplicate field " ++ ticked key
  | .wrongType found wanted => "invalid type: " ++ found.message ++ ", expected " ++ wanted.message
  | .wrongValue found wanted =>
    "invalid value: " ++ found.message ++ ", expected " ++ wanted.message
  | .tooShort length title fields =>
    "invalid length " ++ toString length ++ ", expected struct " ++ title ++ " with " ++
      toString fields ++ (if fields = 1 then " element" else " elements")
  | .unknownVariant name known =>
    "unknown variant " ++ ticked name ++ ", expected one of " ++
      String.intercalate ", " (known.map ticked)
  | .notConstant => "data did not match any variant of untagged enum Constant"
  | .badReference error => error.message

end Fault

end Typings.Json
