import Typings.Constant.Reading
import Typings.Definition
import Typings.Json.Record

/-!
The manifest: a JSON text that lists type definitions by assembly. Each structure of the definitions
is one record, described by its fields in declared order; a text reads as a manifest when every
record has its required fields and every value is of its field's type.
-/

namespace Typings.Manifest

open Typings.Json

/-- Reads a type reference from a string in its written form. -/
def reference (_levels : Nat) : Reader TypeRef :=
  Reader.text.tryMap fun s =>
    match TypeRef.ofText s with
    | .ok ty => .ok ty
    | .error error => .error (.badReference error)

def kindNames : List (String × DefinitionKind) :=
  [("class", .classType), ("struct", .structType), ("interface", .interfaceType),
    ("enum", .enumType), ("delegate", .delegateType)]

def kindNamed (name : String) : Except Fault DefinitionKind :=
  match kindNames.lookup name with
  | some kind => .ok kind
  | none => .error (.unknownVariant name (kindNames.map Prod.fst))

def kindName : Reader DefinitionKind := Reader.text.tryMap kindNamed

/-- Passes over the null behind the key of a kind, and the end of the object around them. -/
def kindEnd (cs : List Char) : Except Fault (List Char) :=
  match Reader.null.run cs with
  | .error fault => .error fault
  | .ok (_, rest) =>
    match skipSpace rest with
    | [] => .error .endOfObject
    | c :: rest => if c = Bracket.object.closing then .ok rest else .error .noValue

/-- Reads the rest of a kind written as an object, whose one member has the kind as its key and null
as its value. -/
def kindMember (cs : List Char) : Except Fault (DefinitionKind × List Char) :=
  match nextMember true cs with
  | .error fault => .error fault
  | .ok (.closed _) => .error .noValue
  | .ok (.more key rest) =>
    match kindNamed key with
    | .error fault => .error fault
    | .ok kind =>
      match colon rest with
      | .error fault => .error fault
      | .ok rest =>
        match kindEnd rest with
        | .error fault => .error fault
        | .ok rest => .ok (kind, rest)

theorem length_kindEnd {cs rest : List Char} (h : kindEnd cs = .ok rest) :
    rest.length < cs.length := by
  unfold kindEnd at h
  split at h
  · cases h
  · next hn =>
    have := Reader.null.shrinks hn
    split at h
    · cases h
    · next heq =>
      have := length_of_skipSpace heq
      split at h
      · cases h; omega
      · cases h

theorem length_kindMember {cs rest : List Char} {kind : DefinitionKind}
    (h : kindMember cs = .ok (kind, rest)) : rest.length < cs.length := by
  unfold kindMember at h
  split at h
  · cases h
  · cases h
  · next hm =>
    have := length_nextMember hm
    simp only [Next.rest] at this
    split at h
    · cases h
    · split at h
      · cases h
      · next hc =>
        have := length_colon hc
        split at h
        · cases h
        · next he =>
          cases h
          have := length_kindEnd he
          omega

/-- Reads a kind: its name, or an object of its name and null. -/
def kind (levels : Nat) : Reader DefinitionKind :=
  .atValue
    (fun c rest =>
      if c = Bracket.object.opening then
        match levels with
        | 0 => .error .tooDeep
        | _ + 1 => kindMember rest
      else if c = '"' then kindName.run (c :: rest)
      else .error .noValue)
    (by
      intro c cs rest a h
      split at h
      · split at h
        · cases h
        · exact Nat.le_of_lt (length_kindMember h)
      · split at h
        · exact Nat.le_of_lt_succ (kindName.shrinks h)
        · cases h)

def text (_levels : Nat) : Reader String := Reader.text

def flag (_levels : Nat) : Reader Bool := Reader.flag

def token (_levels : Nat) : Reader (Option MethodToken) :=
  (Reader.token.map MethodToken.mk).optional

def optional {α : Type} (r : Nat → Reader α) (levels : Nat) : Reader (Option α) :=
  (r levels).optional

def accessor : Record AccessorDef where
  title := "AccessorDef"
  blank := {}
  fields :=
    [.defaulted "token" token fun v d => { d with token := v },
      .defaulted "static" flag fun v d => { d with isStatic := v },
      .defaulted "public" flag fun v d => { d with isPublic := v }]

def field : Record FieldDef where
  title := "FieldDef"
  blank := { name := "", type := .void }
  fields :=
    [.mandatory "name" text fun v d => { d with name := v },
      .mandatory "type" reference fun v d => { d with type := v },
      .defaulted "static" flag fun v d => { d with isStatic := v },
      .defaulted "public" flag fun v d => { d with isPublic := v },
      .defaulted "constant" (optional Constant.read) fun v d => { d with constant := v }]

def property : Record PropertyDef where
  title := "PropertyDef"
  blank := { name := "", type := .void }
  fields :=
    [.mandatory "name" text fun v d => { d with name := v },
      .mandatory "type" reference fun v d => { d with type := v },
      .defaulted "getter" (optional accessor.read) fun v d => { d with getter := v },
      .defaulted "setter" (optional accessor.read) fun v d => { d with setter := v }]

def param : Record ParamDef where
  title := "ParamDef"
  blank := { name := "", type := .void }
  fields :=
    [.mandatory "name" text fun v d => { d with name := v },
      .mandatory "type" reference fun v d => { d with type := v },
      .defaulted "has_default" flag fun v d => { d with hasDefault := v },
      .defaulted "variadic" flag fun v d => { d with isVariadic := v }]

def constructor : Record ConstructorDef where
  title := "ConstructorDef"
  blank := {}
  fields :=
    [.defaulted "token" token fun v d => { d with token := v },
      .defaulted "static" flag fun v d => { d with isStatic := v },
      .defaulted "public" flag fun v d => { d with isPublic := v },
      .defaulted "params" (Reader.list param.read) fun v d => { d with params := v }]

def method : Record MethodDef where
  title := "MethodDef"
  blank := { name := "" }
  fields :=
    [.defaulted "token" token fun v d => { d with token := v },
      .mandatory "name" text fun v d => { d with name := v },
      .defaulted "static" flag fun v d => { d with isStatic := v },
      .defaulted "public" flag fun v d => { d with isPublic := v },
      .defaulted "params" (Reader.list param.read) fun v d => { d with params := v },
      .defaulted "returns" reference fun v d => { d with returns := v }]

def signature : Record Signature where
  title := "Signature"
  blank := {}
  fields :=
    [.defaulted "params" (Reader.list param.read) fun v d => { d with params := v },
      .defaulted "returns" reference fun v d => { d with returns := v }]

def event : Record EventDef where
  title := "EventDef"
  blank := { name := "", handler := .void }
  fields :=
    [.mandatory "name" text fun v d => { d with name := v },
      .mandatory "handler" reference fun v d => { d with handler := v },
      .defaulted "static" flag fun v d => { d with isStatic := v },
      .defaulted "public" flag fun v d => { d with isPublic := v },
      .defaulted "add" token fun v d => { d with add := v },
      .defaulted "remove" token fun v d => { d with remove := v },
      .defaulted "signature" signature.read fun v d => { d with signature := v }]

def type : Record TypeDef where
  title := "TypeDef"
  blank := { name := "" }
  fields :=
    [.defaulted "namespace" text fun v d => { d with space := v },
      .mandatory "name" text fun v d => { d with name := v },
      .defaulted "kind" kind fun v d => { d with kind := v },
      .defaulted "abstract" flag fun v d => { d with isAbstract := v },
      .defaulted "sealed" flag fun v d => { d with isSealed := v },
      .defaulted "public" flag fun v d => { d with isPublic := v },
      .defaulted "declaring_type" (optional text) fun v d => { d with declaringType := v },
      .defaulted "base" (optional reference) fun v d => { d with base := v },
      .defaulted "generic_arguments" (Reader.list reference) fun v d => { d with genericArgs := v },
      .defaulted "attributes" (Reader.list text) fun v d => { d with attributes := v },
      .defaulted "fields" (Reader.list field.read) fun v d => { d with fields := v },
      .defaulted "properties" (Reader.list property.read) fun v d => { d with properties := v },
      .defaulted "constructors" (Reader.list constructor.read) fun v d =>
        { d with constructors := v },
      .defaulted "methods" (Reader.list method.read) fun v d => { d with methods := v },
      .defaulted "events" (Reader.list event.read) fun v d => { d with events := v }]

def assembly : Record AssemblyDef where
  title := "AssemblyDef"
  blank := { name := "" }
  fields :=
    [.mandatory "name" text fun v d => { d with name := v },
      .defaulted "types" (Reader.list type.read) fun v d => { d with types := v },
      .defaulted "load_failures" (Reader.list text) fun v d => { d with loadFailures := v }]

/-- The whole manifest, a record whose one field lists the assemblies. -/
def whole : Record (List AssemblyDef) where
  title := "RawManifest"
  blank := []
  fields := [.defaulted "assemblies" (Reader.list assembly.read) fun v _ => v]

def ofJson (text : String) : Except Fault (List AssemblyDef) := Reader.document whole.read text

def faultMessage (fault : Fault) : String := "invalid metadata manifest: " ++ fault.message

end Typings.Manifest
