import Typings.Graph
import Typings.Primitive

/-!
Types as a declaration file writes them. A reference resolves to the word of a primitive, to the
declaration of an admitted type that is not generic, or to `any`, whichever fits first. A reference
to a declaration always starts at the root namespace. Whether a token is an array does not depend on
that root: `endsAsArray_text` reads it off the text.
-/

namespace Typings

inductive TypeToken where
  | scalar (word : Scalar) (array : Bool)
  /-- The declaration of a full name. -/
  | declared (fullName : String)
  /-- A type parameter of the declaration around the place. -/
  | parameter (name : String)
  | any
  | anyArray
  deriving DecidableEq, Repr

/-- The path of a declaration from the root namespace. -/
def qualify (root fullName : String) : String := root ++ "." ++ fullName

namespace TypeToken

def text (root : String) : TypeToken → String
  | .scalar word array => if array then word.text ++ "[]" else word.text
  | .declared fullName => qualify root fullName
  | .parameter name => name
  | .any => "any"
  | .anyArray => "any[]"

def endsAsArray (name : String) : Bool := ['[', ']'] <:+ name.toList

def isArray : TypeToken → Bool
  | .scalar _ array => array
  | .declared name | .parameter name => endsAsArray name
  | .any => false
  | .anyArray => true

/-- A character that is neither of the last two cuts off what stands in front of it. -/
theorem suffix_pair_append {α : Type} {a b c : α} (ha : a ≠ c) (hb : b ≠ c) (front back : List α) :
    [a, b] <:+ front ++ c :: back ↔ [a, b] <:+ back := by
  rw [← List.reverse_prefix, ← List.reverse_prefix, List.reverse_append,
    @List.reverse_cons _ c back, List.append_assoc]
  match back.reverse with
  | [] => simp [hb]
  | [x] => simp [ha]
  | x :: y :: rest => simp

theorem endsAsArray_qualify (root fullName : String) :
    endsAsArray (qualify root fullName) = endsAsArray fullName := by
  have h : (qualify root fullName).toList = root.toList ++ '.' :: fullName.toList := by
    simp [qualify, String.toList_append]
  rw [endsAsArray, endsAsArray, h, decide_eq_decide]
  exact suffix_pair_append (by decide) (by decide) _ _

theorem endsAsArray_text (root : String) (t : TypeToken) :
    endsAsArray (t.text root) = t.isArray := by
  cases t with
  | scalar word array =>
    cases array with
    | false => rw [text, isArray]; cases word <;> rfl
    | true => rw [text, isArray]; cases word <;> rfl
  | declared fullName => exact endsAsArray_qualify root fullName
  | parameter name => rfl
  | any => rw [text, isArray]; rfl
  | anyArray => rw [text, isArray]; rfl

end TypeToken

namespace TypeGraph

def isPlainType (g : TypeGraph) (fullName : String) : Bool :=
  (g.find? fullName).any fun d => !d.isGeneric

def tokenOf (g : TypeGraph) (ty : TypeRef) : TypeToken :=
  match Primitive.ofRef? ty with
  | some (p, array) => .scalar p.scalar array
  | none =>
    match ty.plainName? with
    | some name => if g.isPlainType name then .declared name else .any
    | none => .any

end TypeGraph

end Typings
