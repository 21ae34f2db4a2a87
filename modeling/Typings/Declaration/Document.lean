import Typings.Declaration.Member
import Typings.Graph.Groups

/-!
The declarations of a graph as data: namespaces of blocks of members, in declared order. It does not
depend on the root namespace, the banner or the indentation, which only its text has.
-/

namespace Typings

inductive SkipReason where
  | nested
  /-- A generic argument is not an open parameter. -/
  | closedGenericArgument
  deriving DecidableEq, Repr

namespace SkipReason

def message : SkipReason → String
  | .nested => "nested type"
  | .closedGenericArgument => "closed generic argument"

end SkipReason

def Descriptor.skipReason? (d : Descriptor) : Option SkipReason :=
  if d.isNested then some .nested
  else if d.genericArgs.any fun arg => !arg.isParam then some .closedGenericArgument
  else none

def Descriptor.isDeclared (d : Descriptor) : Bool := d.skipReason?.isNone

structure Block where
  kind : DeclKind
  name : String
  typeParams : List String
  /-- The full name of the declared base. -/
  base : Option String
  members : List Member

structure SpaceBlock where
  name : String
  types : List Block

abbrev Document := List SpaceBlock

/-- The name of a generic parameter in a header. -/
def typeParamName : TypeRef → String
  | .param name => name
  | ty => ty.text

namespace TypeGraph

/-- The full name of the base that a header names: neither enums nor generic types have one. -/
def declaredBase (g : TypeGraph) (d : Descriptor) : Option String :=
  if d.isGeneric || d.kind.isEnum then none else (d.base.bind g.get?).map Descriptor.fullName

def block (g : TypeGraph) (config : Config) (d : Descriptor) : Block where
  kind := d.kind
  name := d.displayName
  typeParams := d.genericArgs.map typeParamName
  base := g.declaredBase d
  members := g.members config d

/-- The types that are declared, by namespace; a namespace without any is left out. -/
def declaredTypes (g : TypeGraph) : List (String × List Descriptor) :=
  (g.byNamespace.map fun (space, types) => (space, types.filter Descriptor.isDeclared)).filter
    fun (_, types) => !types.isEmpty

def document (g : TypeGraph) (config : Config) : Document :=
  g.declaredTypes.map fun (space, types) => ⟨space, types.map (g.block config)⟩

end TypeGraph

end Typings
