import Typings.Graph.Closure
import Typings.MetadataSet

/-!
Seeding a graph: with all types that an assembly exports, with one type by its full name, or with
the type behind a reference. Each seed is followed by the closure over what it admitted. A name that
the source does not know is an error and changes nothing; a rejected type is none.
-/

namespace Typings

inductive Seed where
  | assembly (name : String)
  | named (fullName : String)
  | reference (ty : TypeRef)
  deriving DecidableEq, Repr

/-- A seed whose name the source does not know. -/
inductive UnknownSeed where
  | assembly (name : String)
  | type (fullName : String)
  deriving DecidableEq, Repr

def UnknownSeed.message : UnknownSeed → String
  | .assembly name => "unknown assembly `" ++ name ++ "`"
  | .type fullName => "unknown type `" ++ fullName ++ "`"

/-- What a seed did to a graph: the closure it led to, and how many types it brought in. -/
structure Growth extends Closure where
  added : Nat

namespace TypeGraph

/-- The frontier in which nothing is pending. -/
def frontier (g : TypeGraph) : Frontier := ⟨g, []⟩

/-- Admits exported definitions, the public ones only, with their own arguments. -/
def offerExports (g : TypeGraph) (types : List TypeDef) : Frontier :=
  (types.filter TypeDef.isPublic).foldl (fun f d => f.offerDef d d.genericArgs) g.frontier

/-- What a seed offers to the graph, before anything is expanded. -/
def offerSeed (src : Source) (g : TypeGraph) : Seed → Except UnknownSeed Frontier
  | .assembly name =>
    match src.exported name with
    | some exports => .ok (g.offerExports exports.types)
    | none => .error (.assembly name)
  | .named fullName =>
    match src.typeDef fullName with
    | some d => .ok (g.frontier.offerDef d d.genericArgs)
    | none => .error (.type fullName)
  | .reference ty => .ok (g.frontier.offer src ty)

def seed (src : Source) (g : TypeGraph) (s : Seed) : Except UnknownSeed Growth :=
  match g.offerSeed src s with
  | .ok f =>
    let closure := f.closeLinked src
    .ok { closure with added := closure.graph.size - g.size }
  | .error unknown => .error unknown

/-- Seeds in order, up to the first unknown one. -/
def seedAll (src : Source) (g : TypeGraph) : List Seed → TypeGraph × Option UnknownSeed
  | [] => (g, none)
  | s :: seeds =>
    match g.seed src s with
    | .ok growth => growth.graph.seedAll src seeds
    | .error unknown => (g, some unknown)

end TypeGraph

inductive Operation where
  | seed (s : Seed)
  | clear
  deriving DecidableEq, Repr

/-- The graph after an operation; an unknown seed leaves it as it was. -/
def TypeGraph.apply (src : Source) (g : TypeGraph) : Operation → TypeGraph
  | .seed s =>
    match g.seed src s with
    | .ok growth => growth.graph
    | .error _ => g
  | .clear => .empty

def TypeGraph.applyAll (src : Source) (g : TypeGraph) (ops : List Operation) : TypeGraph :=
  ops.foldl (TypeGraph.apply src) g

/-- The seeds chosen for a run: assemblies, then single types. -/
structure SeedChoice where
  assemblies : List String := []
  types : List String := []
  deriving DecidableEq, Repr

namespace SeedChoice

/-- The chosen seeds in order; with none chosen, every assembly of the set. -/
def seeds (choice : SeedChoice) (set : MetadataSet) : List Seed :=
  if choice.assemblies.isEmpty && choice.types.isEmpty then
    set.assemblies.map fun assembly => .assembly assembly.name
  else choice.assemblies.map .assembly ++ choice.types.map .named

/-- The graph that the chosen seeds lead to from a given one, and the seed they stopped at. -/
def apply (choice : SeedChoice) (set : MetadataSet) (g : TypeGraph) :
    TypeGraph × Option UnknownSeed :=
  g.seedAll set.source (choice.seeds set)

end SeedChoice

end Typings
