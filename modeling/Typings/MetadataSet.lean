import Std.Data.TreeMap
import Typings.Source

/-!
The definitions of a manifest, indexed by full name. Of several definitions with one full name the
first one counts, in the order of the assemblies and then of the types in an assembly.
-/

namespace Typings

/-- Assemblies, and the places of their types by full name: the index of an assembly, and the index
of a type in it. -/
structure MetadataSet where
  assemblies : List AssemblyDef
  index : Std.TreeMap String (Nat × Nat)

namespace MetadataSet

/-- The full names of all types with their places, in order. -/
def places (assemblies : List AssemblyDef) : List (String × Nat × Nat) :=
  assemblies.zipIdx.flatMap fun (assembly, a) =>
    assembly.types.zipIdx.map fun (type, t) => (type.fullName, a, t)

/-- Indexes the types of the given assemblies; a name that is taken keeps its place. -/
def ofAssemblies (assemblies : List AssemblyDef) : MetadataSet where
  assemblies := assemblies
  index := (places assemblies).foldl (fun index place => index.insertIfNew place.1 place.2) ∅

def assembly? (set : MetadataSet) (name : String) : Option AssemblyDef :=
  set.assemblies.find? fun assembly => assembly.name = name

/-- The number of distinct full names. -/
def size (set : MetadataSet) : Nat := set.index.size

def isEmpty (set : MetadataSet) : Bool := set.index.isEmpty

def at? (set : MetadataSet) (place : Nat × Nat) : Option TypeDef :=
  set.assemblies[place.1]?.bind fun assembly => assembly.types[place.2]?

def typeDef (set : MetadataSet) (name : String) : Option TypeDef := set.index[name]?.bind set.at?

/-- The types of an assembly that others can see: the public ones that are not nested. -/
def exported (set : MetadataSet) (name : String) : Option Exports :=
  (set.assembly? name).map fun assembly =>
    { types := assembly.types.filter fun type => type.isPublic && !type.isNested
      loadFailures := assembly.loadFailures }

/-- All types of an assembly, the ones that others cannot see included. -/
def exportedRaw (set : MetadataSet) (name : String) : Option Exports :=
  (set.assembly? name).map fun assembly =>
    { types := assembly.types, loadFailures := assembly.loadFailures }

def definitions (set : MetadataSet) : List TypeDef := set.assemblies.flatMap AssemblyDef.types

theorem typeDef_mem {set : MetadataSet} {name : String} {d : TypeDef}
    (h : set.typeDef name = some d) : d ∈ set.definitions := by
  obtain ⟨place, -, h⟩ := Option.bind_eq_some_iff.mp h
  obtain ⟨assembly, ha, ht⟩ := Option.bind_eq_some_iff.mp h
  exact List.mem_flatMap.mpr ⟨assembly, List.mem_of_getElem? ha, List.mem_of_getElem? ht⟩

def source (set : MetadataSet) : Source where
  definitions := set.definitions
  typeDef := set.typeDef
  exported := set.exported
  mem_definitions := typeDef_mem

/-- The set as a source that does not filter what an assembly exports. -/
def rawSource (set : MetadataSet) : Source := { set.source with exported := set.exportedRaw }

end MetadataSet

end Typings
