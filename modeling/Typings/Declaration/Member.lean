import Typings.Config
import Typings.Declaration.Parameter

/-!
The members of a declared type: which of the declared members appear, in what order and with what
modifiers. Accessors of properties and events appear through their property or event only.
-/

namespace Typings

/-- One line in the block of a declared type. -/
inductive Member where
  | literal (name : String) (value : Constant)
  | field (isStatic : Bool) (name : String) (type : TypeToken)
  | property (isStatic isReadonly : Bool) (name : String) (type : TypeToken)
  | constructor (params : List Parameter)
  | method (isStatic : Bool) (name : String) (params : List Parameter) (returns : TypeToken)
  /-- A handle to subscribe with a callback of the given signature. -/
  | event (isStatic : Bool) (name : String) (params : List Parameter) (returns : TypeToken)

namespace Member

def staticText (isStatic : Bool) : String := if isStatic then "static " else ""

/-- The modifier of a property without a public setter. -/
def readonlyText (isReadonly : Bool) : String := if isReadonly then "readonly " else ""

def text (root : String) : Member → String
  | .literal name value => name ++ " = " ++ value.text ++ ","
  | .field isStatic name type => staticText isStatic ++ name ++ ": " ++ type.text root ++ ";"
  | .property isStatic isReadonly name type =>
    staticText isStatic ++ readonlyText isReadonly ++ name ++ ": " ++ type.text root ++ ";"
  | .constructor params => "constructor(" ++ Parameter.listText root params ++ ");"
  | .method isStatic name params returns =>
    staticText isStatic ++ name ++ "(" ++ Parameter.listText root params ++ "): " ++
      returns.text root ++ ";"
  | .event isStatic name params returns =>
    staticText isStatic ++ name ++ ": \x7b connect(callback: (" ++
      Parameter.listText root params ++ ") => " ++ returns.text root ++
      "): \x7b disconnect(): void; \x7d; \x7d;"

end Member

namespace TypeDef

def isPropertyAccessor (d : TypeDef) (token : Option MethodToken) : Bool :=
  token.any fun t => d.properties.any fun p => p.hasAccessor t

def isEventAccessor (d : TypeDef) (token : Option MethodToken) : Bool :=
  token.any fun t => d.events.any fun e => e.hasAccessor t

/-- The name behind the mark of a getter or a setter. -/
def accessedName? (name : String) : Option String :=
  match name.toList with
  | 'g' :: 'e' :: 't' :: '_' :: rest => some (String.ofList rest)
  | 's' :: 'e' :: 't' :: '_' :: rest => some (String.ofList rest)
  | _ => none

/-- A method is an accessor by its token, or else by its name: `get_P` and `set_P` belong to a
public property `P`, whatever else they may be. -/
def isAccessor (d : TypeDef) (m : MethodDef) : Bool :=
  d.isPropertyAccessor m.token || d.isEventAccessor m.token ||
    (accessedName? m.name).any fun name =>
      d.properties.any fun p => p.isPublic && p.name = name

end TypeDef

namespace Descriptor

def isInterface (d : Descriptor) : Bool := d.kind = .interfaceType

/-- A member carries the modifier `static`, which no member of an interface does. -/
def marksStatic (d : Descriptor) (isStatic : Bool) : Bool :=
  !d.isInterface && (d.isStatic || isStatic)

/-- Fields and properties are declared when they are instance members, and static ones on request
outside interfaces. -/
def declaresSlot (d : Descriptor) (config : Config) (isStatic : Bool) : Bool :=
  !isStatic || (config.staticMembers && !d.isInterface)

def declaredFields (d : Descriptor) (config : Config) : List FieldDef :=
  d.definition.fields.filter fun f => f.isPublic && d.declaresSlot config f.isStatic

def declaredProperties (d : Descriptor) (config : Config) : List PropertyDef :=
  d.definition.properties.filter fun p => p.isPublic && d.declaresSlot config p.isStatic

/-- The constructors that are declared; interfaces have none. -/
def declaredConstructors (d : Descriptor) : List ConstructorDef :=
  d.definition.constructors.filter fun c =>
    !d.isInterface && c.isPublic && !c.isStatic && !d.definition.isPropertyAccessor c.token

/-- The methods that are declared; interfaces have no static ones. -/
def declaredMethods (d : Descriptor) : List MethodDef :=
  d.definition.methods.filter fun m =>
    m.isPublic && !d.definition.isAccessor m && !(m.isStatic && d.isInterface)

/-- The events that are declared; interfaces have no static ones. -/
def declaredEvents (d : Descriptor) : List EventDef :=
  d.definition.events.filter fun e => e.isPublic && !(e.isStatic && d.isInterface)

end Descriptor

namespace TypeGraph

/-- The values of an enum: its public fields that have a constant. -/
def literals (d : Descriptor) : List Member :=
  (d.definition.fields.filter FieldDef.isPublic).filterMap fun f =>
    f.constant.map (Member.literal f.name)

def fieldMember (g : TypeGraph) (d : Descriptor) (f : FieldDef) : Member :=
  .field (d.marksStatic f.isStatic) f.name (g.tokenOf f.type)

def propertyMember (g : TypeGraph) (config : Config) (d : Descriptor) (p : PropertyDef) : Member :=
  .property (d.marksStatic p.isStatic) (config.readonlyProperties && p.isReadOnly) p.name
    (g.tokenOf p.type)

def constructorMember (g : TypeGraph) (d : Descriptor) (c : ConstructorDef) : Member :=
  .constructor (g.parameters d c.params)

def methodMember (g : TypeGraph) (d : Descriptor) (m : MethodDef) : Member :=
  .method (d.marksStatic m.isStatic) m.name (g.parameters d m.params) (g.tokenOf m.returns)

def eventMember (g : TypeGraph) (d : Descriptor) (e : EventDef) : Member :=
  .event (d.marksStatic e.isStatic) e.name (g.parameters d e.signature.params)
    (g.tokenOf e.signature.returns)

/-- The members of a declared type: literals of an enum, and otherwise fields, properties,
constructors, methods and events, each in the order of the definition. -/
def members (g : TypeGraph) (config : Config) (d : Descriptor) : List Member :=
  if d.kind.isEnum then literals d
  else
    (d.declaredFields config).map (g.fieldMember d) ++
      (d.declaredProperties config).map (g.propertyMember config d) ++
      d.declaredConstructors.map (g.constructorMember d) ++
      d.declaredMethods.map (g.methodMember d) ++
      d.declaredEvents.map (g.eventMember d)

end TypeGraph

end Typings
