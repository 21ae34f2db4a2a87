import Typings.Declaration.Document

/-!
The listing of a graph: one line per admitted top-level type, in declared order, with a note on the
types that are not declared.
-/

namespace Typings

def Descriptor.listed (d : Descriptor) : String :=
  d.kind.keyword ++ " " ++ d.fullName ++
    match d.skipReason? with
    | some reason => " (skipped: " ++ reason.message ++ ")"
    | none => ""

namespace TypeGraph

def listedTypes (g : TypeGraph) : List Descriptor := g.byNamespace.flatMap Prod.snd

def listing (g : TypeGraph) : String :=
  String.join (g.listedTypes.map fun d => d.listed ++ "\n")

end TypeGraph

end Typings
