import Typings.Proofs.Json.Writing
import Typings.Proofs.ManifestReferences

/-! # Presentations of a manifest

How the definitions of a manifest are written: each structure is an object with keys of its own, and
each field that has a default may be left out where it has it. All definitions can be written whose
references are put together from names and positive ranks and whose constants JSON tells apart
(`exists_manifest`).
-/
namespace Typings

/-- The constants that JSON tells apart: doubles aside, an unsigned number is one of them where no
signed one equals it. -/
def Constant.IsWritable : Constant → Prop
  | .bool _ | .int _ | .string _ => True
  | .uint value => Int64.maxValue.toInt < value.toNat
  | .float _ => False

namespace Manifest

open Typings.Json

/-! ## How definitions are written -/

namespace Written

/-- Any string that is the written form of the reference. -/
def reference : Presentation TypeRef := fun ty t =>
  ∃ s, TypeRef.ofText s = .ok ty ∧ Presentation.text s t

def token : Presentation MethodToken := fun token t => Presentation.integer token.value.toNat t

def nameOfKind : DefinitionKind → String
  | .classType => "class"
  | .structType => "struct"
  | .interfaceType => "interface"
  | .enumType => "enum"
  | .delegateType => "delegate"

def kind : Presentation DefinitionKind := fun kind t => Presentation.text (nameOfKind kind) t

/-- Truth values, whole numbers and strings are written as such. JSON has one kind of whole numbers,
so an unsigned one is written only where no signed one equals it. How doubles are written is left
open. -/
def constant : Presentation Constant
  | .bool value, t => Presentation.flag value t
  | .int value, t => Presentation.integer value.toInt t
  | .uint value, t => Int64.maxValue.toInt < value.toNat ∧ Presentation.integer value.toNat t
  | .float _, _ => False
  | .string value, t => Presentation.text value t

def accessor : List (Slot AccessorDef) :=
  [.defaulted "token" AccessorDef.token none (.optional token),
    .defaulted "static" AccessorDef.isStatic false .flag,
    .defaulted "public" AccessorDef.isPublic true .flag]

def field : List (Slot FieldDef) :=
  [.mandatory "name" FieldDef.name .text,
    .mandatory "type" FieldDef.type reference,
    .defaulted "static" FieldDef.isStatic false .flag,
    .defaulted "public" FieldDef.isPublic true .flag,
    .defaulted "constant" FieldDef.constant none (.optional constant)]

def property : List (Slot PropertyDef) :=
  [.mandatory "name" PropertyDef.name .text,
    .mandatory "type" PropertyDef.type reference,
    .defaulted "getter" PropertyDef.getter none (.optional (.object accessor)),
    .defaulted "setter" PropertyDef.setter none (.optional (.object accessor))]

def param : List (Slot ParamDef) :=
  [.mandatory "name" ParamDef.name .text,
    .mandatory "type" ParamDef.type reference,
    .defaulted "has_default" ParamDef.hasDefault false .flag,
    .defaulted "variadic" ParamDef.isVariadic false .flag]

def constructor : List (Slot ConstructorDef) :=
  [.defaulted "token" ConstructorDef.token none (.optional token),
    .defaulted "static" ConstructorDef.isStatic false .flag,
    .defaulted "public" ConstructorDef.isPublic true .flag,
    .defaulted "params" ConstructorDef.params [] (.list (.object param))]

def method : List (Slot MethodDef) :=
  [.defaulted "token" MethodDef.token none (.optional token),
    .mandatory "name" MethodDef.name .text,
    .defaulted "static" MethodDef.isStatic false .flag,
    .defaulted "public" MethodDef.isPublic true .flag,
    .defaulted "params" MethodDef.params [] (.list (.object param)),
    .defaulted "returns" MethodDef.returns (.named "System.Void" []) reference]

def signature : List (Slot Signature) :=
  [.defaulted "params" Signature.params [] (.list (.object param)),
    .defaulted "returns" Signature.returns (.named "System.Void" []) reference]

def event : List (Slot EventDef) :=
  [.mandatory "name" EventDef.name .text,
    .mandatory "handler" EventDef.handler reference,
    .defaulted "static" EventDef.isStatic false .flag,
    .defaulted "public" EventDef.isPublic true .flag,
    .defaulted "add" EventDef.add none (.optional token),
    .defaulted "remove" EventDef.remove none (.optional token),
    .defaulted "signature" EventDef.signature ⟨[], .named "System.Void" []⟩ (.object signature)]

def type : List (Slot TypeDef) :=
  [.defaulted "namespace" TypeDef.space "" .text,
    .mandatory "name" TypeDef.name .text,
    .defaulted "kind" TypeDef.kind .classType kind,
    .defaulted "abstract" TypeDef.isAbstract false .flag,
    .defaulted "sealed" TypeDef.isSealed false .flag,
    .defaulted "public" TypeDef.isPublic true .flag,
    .defaulted "declaring_type" TypeDef.declaringType none (.optional .text),
    .defaulted "base" TypeDef.base none (.optional reference),
    .defaulted "generic_arguments" TypeDef.genericArgs [] (.list reference),
    .defaulted "attributes" TypeDef.attributes [] (.list .text),
    .defaulted "fields" TypeDef.fields [] (.list (.object field)),
    .defaulted "properties" TypeDef.properties [] (.list (.object property)),
    .defaulted "constructors" TypeDef.constructors [] (.list (.object constructor)),
    .defaulted "methods" TypeDef.methods [] (.list (.object method)),
    .defaulted "events" TypeDef.events [] (.list (.object event))]

def assembly : List (Slot AssemblyDef) :=
  [.mandatory "name" AssemblyDef.name .text,
    .defaulted "types" AssemblyDef.types [] (.list (.object type)),
    .defaulted "load_failures" AssemblyDef.loadFailures [] (.list .text)]

def whole : List (Slot (List AssemblyDef)) :=
  [.defaulted "assemblies" id [] (.list (.object assembly))]

end Written

/-- The text is a manifest of the assemblies. -/
def Describes (text : String) (assemblies : List AssemblyDef) : Prop :=
  (Presentation.object Written.whole).Document assemblies text

/-! ## What can be written -/

namespace Written

open Presentation

theorem exists_reference {ty : TypeRef} (h : ty.WellFormed) : ∃ t, reference ty t := by
  obtain ⟨t, ht⟩ := exists_text ty.text
  exact ⟨t, ty.text, TypeRef.ofText_text_iff.mpr h, ht⟩

theorem exists_token (o : Option MethodToken) : ∃ t, Presentation.optional token o t :=
  exists_optional fun token _ => exists_integer token.value.toNat

theorem exists_constant {constant : Constant} (h : constant.IsWritable) :
    ∃ t, Written.constant constant t := by
  cases constant with
  | bool value => exact exists_flag value
  | int value => exact exists_integer value.toInt
  | uint value =>
    obtain ⟨t, ht⟩ := exists_integer value.toNat
    exact ⟨t, h, ht⟩
  | float value => exact absurd h not_false
  | string value => exact exists_text value

theorem exists_accessor (o : Option AccessorDef) :
    ∃ t, Presentation.optional (.object accessor) o t := by
  refine exists_optional fun a _ => exists_object (by decide) ?_
  simp only [accessor, List.forall_mem_cons]
  exact ⟨exists_token _, exists_flag _, exists_flag _, List.forall_mem_nil _⟩

theorem exists_field {f : FieldDef} (h : f.WellFormed) (hc : ∀ c ∈ f.constant, c.IsWritable) :
    ∃ t, Presentation.object field f t := by
  refine exists_object (by decide) ?_
  simp only [field, List.forall_mem_cons]
  exact ⟨exists_text _, exists_reference h, exists_flag _, exists_flag _,
    exists_optional fun c hmem => exists_constant (hc c hmem), List.forall_mem_nil _⟩

theorem exists_property {p : PropertyDef} (h : p.WellFormed) :
    ∃ t, Presentation.object property p t := by
  refine exists_object (by decide) ?_
  simp only [property, List.forall_mem_cons]
  exact ⟨exists_text _, exists_reference h, exists_accessor _, exists_accessor _,
    List.forall_mem_nil _⟩

theorem exists_params {ps : List ParamDef} (h : ∀ p ∈ ps, p.WellFormed) :
    ∃ t, Presentation.list (.object param) ps t := by
  refine exists_list fun p hp => exists_object (by decide) ?_
  simp only [param, List.forall_mem_cons]
  exact ⟨exists_text _, exists_reference (h p hp), exists_flag _, exists_flag _,
    List.forall_mem_nil _⟩

theorem exists_constructor {c : ConstructorDef} (h : c.WellFormed) :
    ∃ t, Presentation.object constructor c t := by
  refine exists_object (by decide) ?_
  simp only [constructor, List.forall_mem_cons]
  exact ⟨exists_token _, exists_flag _, exists_flag _, exists_params h, List.forall_mem_nil _⟩

theorem exists_method {m : MethodDef} (h : m.WellFormed) :
    ∃ t, Presentation.object method m t := by
  refine exists_object (by decide) ?_
  simp only [method, List.forall_mem_cons]
  exact ⟨exists_token _, exists_text _, exists_flag _, exists_flag _, exists_params h.params,
    exists_reference h.returns, List.forall_mem_nil _⟩

theorem exists_signature {s : Signature} (h : s.WellFormed) :
    ∃ t, Presentation.object signature s t := by
  refine exists_object (by decide) ?_
  simp only [signature, List.forall_mem_cons]
  exact ⟨exists_params h.params, exists_reference h.returns, List.forall_mem_nil _⟩

theorem exists_event {e : EventDef} (h : e.WellFormed) : ∃ t, Presentation.object event e t := by
  refine exists_object (by decide) ?_
  simp only [event, List.forall_mem_cons]
  exact ⟨exists_text _, exists_reference h.handler, exists_flag _, exists_flag _, exists_token _,
    exists_token _, exists_signature h.signature, List.forall_mem_nil _⟩

theorem exists_type {d : TypeDef} (h : d.WellFormed)
    (hc : ∀ f ∈ d.fields, ∀ c ∈ f.constant, c.IsWritable) :
    ∃ t, Presentation.object type d t := by
  refine exists_object (by decide) ?_
  simp only [type, List.forall_mem_cons]
  exact ⟨exists_text _, exists_text _, exists_text _, exists_flag _, exists_flag _, exists_flag _,
    exists_optional fun s _ => exists_text s,
    exists_optional fun ty hty => exists_reference (h.base ty hty),
    exists_list fun ty hty => exists_reference (h.genericArgs ty hty),
    exists_list fun s _ => exists_text s,
    exists_list fun f hf => exists_field (h.fields f hf) (hc f hf),
    exists_list fun p hp => exists_property (h.properties p hp),
    exists_list fun c hc => exists_constructor (h.constructors c hc),
    exists_list fun m hm => exists_method (h.methods m hm),
    exists_list fun e he => exists_event (h.events e he), List.forall_mem_nil _⟩

end Written

/-- Assemblies with well-formed references and constants that JSON tells apart. -/
structure Writable (assemblies : List AssemblyDef) : Prop where
  references : ∀ a ∈ assemblies, ∀ d ∈ a.types, d.WellFormed
  constants : ∀ a ∈ assemblies, ∀ d ∈ a.types, ∀ f ∈ d.fields, ∀ c ∈ f.constant, c.IsWritable

theorem exists_manifest {assemblies : List AssemblyDef} (h : Writable assemblies) :
    ∃ text, Describes text assemblies := by
  refine Presentation.exists_document (Presentation.exists_object (by decide) ?_)
  simp only [Written.whole, List.forall_mem_cons]
  refine ⟨Presentation.exists_list fun a ha => Presentation.exists_object (by decide) ?_,
    List.forall_mem_nil _⟩
  simp only [Written.assembly, List.forall_mem_cons]
  exact ⟨Presentation.exists_text _,
    Presentation.exists_list fun d hd =>
      Written.exists_type (h.references a ha d hd) (h.constants a ha d hd),
    Presentation.exists_list fun s _ => Presentation.exists_text s, List.forall_mem_nil _⟩

end Manifest

end Typings
