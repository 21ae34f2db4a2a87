import Typings.Constant
import Typings.TypeRef

/-!
Type definitions as a manifest gives them: a type with the members it declares itself. Inherited
members are reached through the base reference.
-/

namespace Typings

/-- A number that identifies a method within its module. -/
structure MethodToken where
  value : UInt32
  deriving DecidableEq, Repr

inductive DefinitionKind where
  | classType
  | structType
  | interfaceType
  | enumType
  | delegateType
  deriving DecidableEq, Repr, Inhabited

structure FieldDef where
  name : String
  type : TypeRef
  isStatic : Bool := false
  isPublic : Bool := true
  constant : Option Constant := none

structure AccessorDef where
  token : Option MethodToken := none
  isStatic : Bool := false
  isPublic : Bool := true
  deriving DecidableEq, Repr

structure PropertyDef where
  name : String
  type : TypeRef
  getter : Option AccessorDef := none
  setter : Option AccessorDef := none
  deriving DecidableEq, Repr

structure ParamDef where
  name : String
  type : TypeRef
  hasDefault : Bool := false
  isVariadic : Bool := false
  deriving DecidableEq, Repr

structure ConstructorDef where
  token : Option MethodToken := none
  isStatic : Bool := false
  isPublic : Bool := true
  params : List ParamDef := []
  deriving DecidableEq, Repr

structure MethodDef where
  token : Option MethodToken := none
  name : String
  isStatic : Bool := false
  isPublic : Bool := true
  params : List ParamDef := []
  returns : TypeRef := .void
  deriving DecidableEq, Repr

/-- What the handler of an event is called with, and what it returns. -/
structure Signature where
  params : List ParamDef := []
  returns : TypeRef := .void
  deriving DecidableEq, Repr

/-- An event, its handler type and the tokens of the methods that add and remove handlers. -/
structure EventDef where
  name : String
  handler : TypeRef
  isStatic : Bool := false
  isPublic : Bool := true
  add : Option MethodToken := none
  remove : Option MethodToken := none
  signature : Signature := {}
  deriving DecidableEq, Repr

structure TypeDef where
  /-- The namespace; empty for the global one. -/
  space : String := ""
  /-- The name in metadata, with the generic arity after a backtick. -/
  name : String
  kind : DefinitionKind := .classType
  isAbstract : Bool := false
  isSealed : Bool := false
  isPublic : Bool := true
  /-- The full name of the enclosing type of a nested type. -/
  declaringType : Option String := none
  base : Option TypeRef := none
  /-- Parameters of a generic definition, or concrete arguments of a constructed type. -/
  genericArgs : List TypeRef := []
  /-- The full names of the attributes applied to the type. -/
  attributes : List String := []
  fields : List FieldDef := []
  properties : List PropertyDef := []
  constructors : List ConstructorDef := []
  methods : List MethodDef := []
  events : List EventDef := []

def FieldDef.isLiteral (f : FieldDef) : Bool := f.constant.isSome

/-! ## Properties and events -/

namespace PropertyDef

def accessors (p : PropertyDef) : List AccessorDef := p.getter.toList ++ p.setter.toList

/-- A property is public when one of its accessors is. -/
def isPublic (p : PropertyDef) : Bool := p.accessors.any AccessorDef.isPublic

/-- A property is static when one of its accessors is. -/
def isStatic (p : PropertyDef) : Bool := p.accessors.any AccessorDef.isStatic

/-- A property with a public getter and no public setter. -/
def isReadOnly (p : PropertyDef) : Bool :=
  p.getter.any AccessorDef.isPublic && !p.setter.any AccessorDef.isPublic

def hasAccessor (p : PropertyDef) (token : MethodToken) : Bool :=
  p.accessors.any fun a => a.token = some token

end PropertyDef

/-- A token is the method that adds or removes handlers of the event. -/
def EventDef.hasAccessor (e : EventDef) (token : MethodToken) : Bool :=
  e.add = some token || e.remove = some token

/-! ## Names and shape of a type -/

/-- The characters before the last occurrence of a mark, or all of them when it does not occur. -/
def beforeLast (mark : Char) (cs : List Char) : List Char :=
  if mark ∈ cs then ((cs.reverse.dropWhile (· ≠ mark)).drop 1).reverse else cs

def flagsAttribute : String := "System.FlagsAttribute"

namespace TypeDef

/-- The name that identifies a type: `Outer+Name` when it is nested, otherwise `Namespace.Name`, or
the bare name in the global namespace. -/
def fullName (d : TypeDef) : String :=
  match d.declaringType with
  | some outer => outer ++ "+" ++ d.name
  | none => if d.space.isEmpty then d.name else d.space ++ "." ++ d.name

def displayName (d : TypeDef) : String := String.ofList (beforeLast '`' d.name.toList)

def isNested (d : TypeDef) : Bool := d.declaringType.isSome

def isInterface (d : TypeDef) : Bool := d.kind = .interfaceType

def isEnum (d : TypeDef) : Bool := d.kind = .enumType

def isGeneric (d : TypeDef) : Bool := !d.genericArgs.isEmpty

def hasAttribute (d : TypeDef) (fullName : String) : Bool := d.attributes.contains fullName

def isFlags (d : TypeDef) : Bool := d.isEnum && d.hasAttribute flagsAttribute

/-- Abstract and sealed at once: a container of static members only. -/
def isStatic (d : TypeDef) : Bool := d.isAbstract && d.isSealed

end TypeDef

/-- The types of one assembly, and the names of those that its producer could not load. -/
structure AssemblyDef where
  name : String
  types : List TypeDef := []
  loadFailures : List String := []

example : ({ name := "A`1`2" } : TypeDef).displayName = "A`1" ∧
    ({ name := "A", space := "N", declaringType := some "O" } : TypeDef).fullName = "O+A" := by
  decide +kernel

end Typings
