import Typings.Graph
import Typings.Source

/-!
Admission: whether a reference or a definition brings a new type into the graph, and if not, why.
-/

namespace Typings

inductive Rejection where
  /-- A generic parameter has no full name. -/
  | noFullName
  /-- Arrays, by-refs and pointers are no types of their own. -/
  | wrapper
  | root
  | alreadyPresent
  | unresolved
  | nested
  /-- A constructed generic with an argument that holds no parameter. -/
  | closedGeneric
  deriving DecidableEq, Repr

/-- The root of the class hierarchy, which is never declared. -/
def rootType : String := "System.Object"

namespace TypeGraph

/-- The definition behind a reference, when it can still be new to the graph. -/
def resolve (g : TypeGraph) (src : Source) : TypeRef → Except Rejection TypeDef
  | .param _ => .error .noFullName
  | .array .. | .byRef _ | .pointer _ => .error .wrapper
  | .named name _ =>
    if name = rootType then .error .root
    else if g.contains name then .error .alreadyPresent
    else
      match src.typeDef name with
      | some d => .ok d
      | none => .error .unresolved

/-- What keeps a definition out that is reached with the given generic arguments. -/
def rejection? (g : TypeGraph) (d : TypeDef) (args : List TypeRef) : Option Rejection :=
  if d.fullName = rootType then some .root
  else if g.contains d.fullName then some .alreadyPresent
  else if d.isNested then some .nested
  else if (args ++ d.genericArgs).any TypeRef.isClosed then some .closedGeneric
  else none

theorem not_contains_of_rejection? {g : TypeGraph} {d : TypeDef} {args : List TypeRef}
    (h : g.rejection? d args = none) : g.contains d.fullName = false := by
  unfold rejection? at h
  split at h
  · cases h
  · split at h
    · cases h
    · next hc => simpa using hc

theorem resolve_eq_ok {g : TypeGraph} {src : Source} {ty : TypeRef} {d : TypeDef}
    (h : g.resolve src ty = .ok d) : ∃ name, ty.name? = some name ∧ src.typeDef name = some d := by
  unfold resolve at h
  split at h
  · cases h
  · cases h
  · cases h
  · cases h
  · split at h
    · cases h
    · split at h
      · cases h
      · split at h
        · next hd => cases h; exact ⟨_, rfl, hd⟩
        · cases h

end TypeGraph

end Typings
