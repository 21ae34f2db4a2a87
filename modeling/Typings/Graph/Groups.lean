import Typings.Graph

/-!
The declared order of a graph: top-level types grouped by namespace, namespaces in order with the
global one first, and the types of a namespace in the order of their full names.
-/

namespace Typings.TypeGraph

/-- The descriptors of types that are not nested, in the order of admission. -/
def topLevel (g : TypeGraph) : List Descriptor :=
  g.descriptors.toList.filter fun d => !d.isNested

def spaces (g : TypeGraph) : List String :=
  (g.topLevel.map Descriptor.space).eraseDups.mergeSort fun a b => a ≤ b

/-- The top-level types of a namespace, in the order of their full names. -/
def inSpace (g : TypeGraph) (space : String) : List Descriptor :=
  (g.topLevel.filter fun d => d.space = space).mergeSort fun a b => a.fullName ≤ b.fullName

def byNamespace (g : TypeGraph) : List (String × List Descriptor) :=
  g.spaces.map fun space => (space, g.inSpace space)

end Typings.TypeGraph
