import Std.Data.TreeMap
import Typings.Definition

/-!
The type graph: descriptors of the admitted types in the order of their admission, with an index by
full name that tells what has been admitted already. Descriptors are only ever appended.
-/

namespace Typings

/-- The position of a descriptor in its graph. -/
structure TypeId where
  index : Nat
  deriving DecidableEq, Repr

inductive DeclKind where
  | plainClass
  | abstractClass
  | interfaceType
  | enumType (flags : Bool)
  deriving DecidableEq, Repr

namespace DeclKind

/-- What a definition is declared as: structs and delegates are classes. -/
def of (d : TypeDef) : DeclKind :=
  if d.isInterface then .interfaceType
  else if d.isEnum then .enumType d.isFlags
  else if d.isAbstract then .abstractClass
  else .plainClass

def keyword : DeclKind → String
  | .plainClass => "class"
  | .abstractClass => "abstract class"
  | .interfaceType => "interface"
  | .enumType _ => "enum"

def isEnum : DeclKind → Bool
  | .enumType _ => true
  | _ => false

end DeclKind

structure Descriptor where
  fullName : String
  kind : DeclKind
  /-- The admitted type that the base reference names, if there is one. -/
  base : Option TypeId
  definition : TypeDef

namespace Descriptor

/-- The descriptor of a definition whose base is yet to be looked up. -/
def of (d : TypeDef) : Descriptor := ⟨d.fullName, .of d, none, d⟩

def space (d : Descriptor) : String := d.definition.space

/-- The name in the header of the declaration. -/
def displayName (d : Descriptor) : String := d.definition.displayName

def genericArgs (d : Descriptor) : List TypeRef := d.definition.genericArgs

def isGeneric (d : Descriptor) : Bool := d.definition.isGeneric

def isNested (d : Descriptor) : Bool := d.definition.isNested

/-- Abstract and sealed, so that every member is static. -/
def isStatic (d : Descriptor) : Bool := d.definition.isStatic

def hasGenericParam (d : Descriptor) (ty : TypeRef) : Bool :=
  ty.isParam && d.genericArgs.contains ty

end Descriptor

/-- The admitted types, no two with one full name. -/
structure TypeGraph where
  descriptors : Array Descriptor
  index : Std.TreeMap String TypeId

namespace TypeGraph

def empty : TypeGraph := ⟨#[], ∅⟩

def size (g : TypeGraph) : Nat := g.descriptors.size

def isEmpty (g : TypeGraph) : Bool := g.descriptors.isEmpty

def contains (g : TypeGraph) (name : String) : Bool := g.index.contains name

def lookup (g : TypeGraph) (name : String) : Option TypeId := g.index[name]?

def get? (g : TypeGraph) (id : TypeId) : Option Descriptor := g.descriptors[id.index]?

def find? (g : TypeGraph) (name : String) : Option Descriptor := (g.lookup name).bind g.get?

/-- The descriptors with their positions, in the order of admission. -/
def entries (g : TypeGraph) : List (TypeId × Descriptor) :=
  g.descriptors.toList.zipIdx.map fun (d, i) => (⟨i⟩, d)

/-- The full names in the order of admission. -/
def fullNames (g : TypeGraph) : List String := g.descriptors.toList.map Descriptor.fullName

def insert (g : TypeGraph) (d : TypeDef) : TypeGraph where
  descriptors := g.descriptors.push (.of d)
  index := g.index.insert d.fullName ⟨g.size⟩

/-- The admitted type that a definition's base names. A constructed base names none. -/
def baseOf (g : TypeGraph) (d : TypeDef) : Option TypeId :=
  (d.base.bind TypeRef.plainName?).bind g.lookup

def linkBases (g : TypeGraph) : TypeGraph :=
  { g with
    descriptors := g.descriptors.map fun d => { d with base := g.baseOf d.definition } }

theorem lookup_insert (g : TypeGraph) (d : TypeDef) (name : String) :
    (g.insert d).lookup name = if d.fullName = name then some ⟨g.size⟩ else g.lookup name := by
  simp [lookup, insert, Std.TreeMap.getElem?_insert]

theorem contains_eq_isSome_lookup (g : TypeGraph) (name : String) :
    g.contains name = (g.lookup name).isSome :=
  Std.TreeMap.contains_eq_isSome_getElem?

theorem contains_insert (g : TypeGraph) (d : TypeDef) (name : String) :
    (g.insert d).contains name = (decide (d.fullName = name) || g.contains name) := by
  rw [contains_eq_isSome_lookup, contains_eq_isSome_lookup, lookup_insert]
  split <;> simp_all

@[simp] theorem size_insert (g : TypeGraph) (d : TypeDef) : (g.insert d).size = g.size + 1 := by
  simp [size, insert]

end TypeGraph

end Typings
