import Typings.Text.Blank
import Typings.TypeRef

/-!
Reading a type reference from its written form,

    type   := blank* core suffix* blank*
    core   := '!' name | name [ '<' type (',' type)* '>' ]
    suffix := '[' ','* ']' | '&' | '*'

One character is read at a time. A `Progress` records what has been read so far: the constructed
types still open around the current position, and how far the current reference has come. Reading
fails at the first character that no reference could continue with, and a text that ends early
fails by what was still awaited.
-/

namespace Typings.TypeRef

open Typings.Text (isBlank)

/-- Why a text is not a type reference; offsets count bytes of its UTF-8 form. -/
inductive SyntaxError where
  | empty
  | expectedName (offset : Nat)
  | unexpected (found : Char) (offset : Nat)
  | unclosed (bracket : Char)
  deriving DecidableEq, Repr

namespace SyntaxError

def message : SyntaxError → String
  | .empty => "empty type reference"
  | .expectedName offset => "expected a type name at offset " ++ toString offset
  | .unexpected found offset =>
    "unexpected `" ++ found.toString ++ "` at offset " ++ toString offset
  | .unclosed bracket => "unclosed `" ++ bracket.toString ++ "`"

end SyntaxError

/-- Characters with a role of their own in the written form. -/
def isMark (c : Char) : Bool := c ∈ ['<', '>', ',', '[', ']', '&', '*', '!']

/-- Names are made of characters that are neither blank nor marks. -/
def isNameChar (c : Char) : Bool := !isBlank c && !isMark c

/-- A constructed type whose closing bracket is still to come, with the arguments read so far. -/
structure Opened where
  name : String
  args : List TypeRef
  deriving DecidableEq, Repr

namespace Opened

def push (o : Opened) (arg : TypeRef) : Opened := { o with args := o.args ++ [arg] }

/-- The constructed type once its bracket closes after a last argument. -/
def close (o : Opened) (arg : TypeRef) : TypeRef := .named o.name (o.args ++ [arg])

end Opened

/-- What has been read so far, innermost opened type first. -/
inductive Progress where
  /-- A reference may start here, after any blanks. -/
  | start (outer : List Opened)
  /-- Within a type's name; the last character read comes first. -/
  | name (outer : List Opened) (read : List Char)
  /-- Just after the mark of a generic parameter. -/
  | paramStart (outer : List Opened)
  /-- Within a parameter's name; the last character read comes first. -/
  | paramName (outer : List Opened) (read : List Char)
  /-- Inside the brackets of an array, with the rank counted so far. -/
  | inRank (outer : List Opened) (element : TypeRef) (rank : Nat)
  /-- A whole reference has been read, and suffixes may follow. -/
  | suffix (outer : List Opened) (ty : TypeRef)
  /-- Blanks have followed a whole reference, so no suffix may follow any more. -/
  | done (outer : List Opened) (ty : TypeRef)
  deriving DecidableEq, Repr

namespace Progress

/-- The type name spelled by characters in reverse. -/
def spelled (read : List Char) : String := String.ofList read.reverse

/-- A separator or a closing bracket after a whole reference, which only an opened type awaits. -/
def separate (outer : List Opened) (ty : TypeRef) (c : Char) (offset : Nat) :
    Except SyntaxError Progress :=
  match outer with
  | [] => .error (.unexpected c offset)
  | o :: outer =>
    if c = ',' then .ok (.start (o.push ty :: outer))
    else if c = '>' then .ok (.suffix outer (o.close ty))
    else .error (.unexpected c offset)

def follow (outer : List Opened) (ty : TypeRef) (c : Char) (offset : Nat) :
    Except SyntaxError Progress :=
  if c = '[' then .ok (.inRank outer ty 1)
  else if c = '&' then .ok (.suffix outer (.byRef ty))
  else if c = '*' then .ok (.suffix outer (.pointer ty))
  else if isBlank c then .ok (.done outer ty)
  else separate outer ty c offset

def step (p : Progress) (c : Char) (offset : Nat) : Except SyntaxError Progress :=
  match p with
  | .start outer =>
    if isBlank c then .ok (.start outer)
    else if c = '!' then .ok (.paramStart outer)
    else if isNameChar c then .ok (.name outer [c])
    else .error (.expectedName offset)
  | .name outer read =>
    if isNameChar c then .ok (.name outer (c :: read))
    else if c = '<' then .ok (.start (⟨spelled read, []⟩ :: outer))
    else follow outer (.named (spelled read) []) c offset
  | .paramStart outer =>
    if isNameChar c then .ok (.paramName outer [c]) else .error (.expectedName offset)
  | .paramName outer read =>
    if isNameChar c then .ok (.paramName outer (c :: read))
    else follow outer (.param (spelled read)) c offset
  | .inRank outer element rank =>
    if c = ',' then .ok (.inRank outer element (rank + 1))
    else if c = ']' then .ok (.suffix outer (.array element rank))
    else .error (.unexpected c offset)
  | .suffix outer ty => follow outer ty c offset
  | .done outer ty =>
    if isBlank c then .ok (.done outer ty) else separate outer ty c offset

/-- A whole reference at the end of the text, unless an opened type still awaits its bracket. -/
def whole (outer : List Opened) (ty : TypeRef) : Except SyntaxError TypeRef :=
  if outer.isEmpty then .ok ty else .error (.unclosed '<')

/-- What the text amounts to when it ends at a byte offset. -/
def finish (p : Progress) (offset : Nat) : Except SyntaxError TypeRef :=
  match p with
  | .start outer => if outer.isEmpty then .error .empty else .error (.expectedName offset)
  | .paramStart _ => .error (.expectedName offset)
  | .name outer read => whole outer (.named (spelled read) [])
  | .paramName outer read => whole outer (.param (spelled read))
  | .inRank .. => .error (.unclosed '[')
  | .suffix outer ty | .done outer ty => whole outer ty

def run (p : Progress) (offset : Nat) : List Char → Except SyntaxError TypeRef
  | [] => p.finish offset
  | c :: cs =>
    match p.step c offset with
    | .ok p => p.run (offset + c.utf8Size) cs
    | .error e => .error e

end Progress

/-- The reference that a text writes, or the first reason why it writes none. -/
def ofText (s : String) : Except SyntaxError TypeRef := (Progress.start []).run 0 s.toList

example : ofText " A.B`1<!T, int[,]& >*" =
    .ok (.pointer (.named "A.B`1" [.param "T", .byRef (.array (.named "int" []) 2)])) := by
  rfl

example : ofText "é<a" = .error (.unclosed '<') ∧ ofText "é<>" = .error (.expectedName 3) ∧
    ofText "é [" = .error (.unexpected '[' 3) ∧ ofText "\u2003" = .error .empty := by
  exact ⟨rfl, rfl, rfl, rfl⟩

end Typings.TypeRef
