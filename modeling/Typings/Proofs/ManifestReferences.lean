import Typings.Manifest
import Typings.MetadataSet
import Typings.Proofs.Json.Yields
import Typings.Proofs.TypeRef.RoundTrip

/-! # The references of a manifest

A reference comes into a manifest in one of two ways: a text is read as it, or it is the default of
its field. Either way its names are names, so none of them contains a mark. The records carry this
from the references to whole definitions.
-/
namespace Typings

open Json

theorem TypeRef.wellFormed_void : TypeRef.void.WellFormed where
  names n hn := by
    cases List.mem_singleton.mp hn
    exact ⟨by decide, List.all_eq_true.mp (by decide +kernel)⟩
  ranks r hr := by cases hr

/-- What a text is read as is put together from names and positive ranks. -/
theorem TypeRef.wellFormed_of_ofText {s : String} {ty : TypeRef} (h : ofText s = .ok ty) :
    ty.WellFormed := by
  obtain ⟨p, -, rfl⟩ := ofText_eq_ok_iff.mp h
  exact p.wellFormed_tree

/-! ## Definitions -/

def FieldDef.WellFormed (f : FieldDef) : Prop := f.type.WellFormed

def PropertyDef.WellFormed (p : PropertyDef) : Prop := p.type.WellFormed

def ParamDef.WellFormed (p : ParamDef) : Prop := p.type.WellFormed

def ConstructorDef.WellFormed (c : ConstructorDef) : Prop := ∀ p ∈ c.params, p.WellFormed

structure MethodDef.WellFormed (m : MethodDef) : Prop where
  params : ∀ p ∈ m.params, p.WellFormed
  returns : m.returns.WellFormed

structure Signature.WellFormed (s : Signature) : Prop where
  params : ∀ p ∈ s.params, p.WellFormed
  returns : s.returns.WellFormed

structure EventDef.WellFormed (e : EventDef) : Prop where
  handler : e.handler.WellFormed
  signature : e.signature.WellFormed

/-- Every reference in the definition is put together from names and positive ranks. -/
structure TypeDef.WellFormed (d : TypeDef) : Prop where
  base : ∀ ty ∈ d.base, ty.WellFormed
  genericArgs : ∀ ty ∈ d.genericArgs, ty.WellFormed
  fields : ∀ f ∈ d.fields, f.WellFormed
  properties : ∀ p ∈ d.properties, p.WellFormed
  constructors : ∀ c ∈ d.constructors, c.WellFormed
  methods : ∀ m ∈ d.methods, m.WellFormed
  events : ∀ e ∈ d.events, e.WellFormed

namespace Manifest

open TypeRef (wellFormed_void)

theorem yields_reference (levels : Nat) : (reference levels).Yields TypeRef.WellFormed := by
  refine Reader.text.yields_true.tryMap fun s ty _ h => ?_
  split at h
  · next hty => cases h; exact TypeRef.wellFormed_of_ofText hty
  · cases h

theorem yields_field (levels : Nat) : (field.read levels).Yields FieldDef.WellFormed := by
  refine Record.yields_read wellFormed_void ?_ levels
  simp only [field, List.forall_mem_cons]
  exact ⟨Field.keeps_of_set fun _ _ h => h, Field.keeps_mk yields_reference fun _ _ h _ => h,
    Field.keeps_of_set fun _ _ h => h, Field.keeps_of_set fun _ _ h => h,
    Field.keeps_of_set fun _ _ h => h, List.forall_mem_nil _⟩

theorem yields_property (levels : Nat) : (property.read levels).Yields PropertyDef.WellFormed := by
  refine Record.yields_read wellFormed_void ?_ levels
  simp only [property, List.forall_mem_cons]
  exact ⟨Field.keeps_of_set fun _ _ h => h, Field.keeps_mk yields_reference fun _ _ h _ => h,
    Field.keeps_of_set fun _ _ h => h, Field.keeps_of_set fun _ _ h => h, List.forall_mem_nil _⟩

theorem yields_param (levels : Nat) : (param.read levels).Yields ParamDef.WellFormed := by
  refine Record.yields_read wellFormed_void ?_ levels
  simp only [param, List.forall_mem_cons]
  exact ⟨Field.keeps_of_set fun _ _ h => h, Field.keeps_mk yields_reference fun _ _ h _ => h,
    Field.keeps_of_set fun _ _ h => h, Field.keeps_of_set fun _ _ h => h, List.forall_mem_nil _⟩

theorem keeps_params {α : Type} {P : α → Prop} {set : List ParamDef → α → α}
    (hset : ∀ ps draft, (∀ p ∈ ps, p.WellFormed) → P draft → P (set ps draft)) :
    (Field.defaulted "params" (Reader.list param.read) set).Keeps P :=
  Field.keeps_mk (Reader.yields_list yields_param) hset

theorem yields_constructor (levels : Nat) :
    (constructor.read levels).Yields ConstructorDef.WellFormed := by
  refine Record.yields_read (List.forall_mem_nil _) ?_ levels
  simp only [constructor, List.forall_mem_cons]
  exact ⟨Field.keeps_of_set fun _ _ h => h, Field.keeps_of_set fun _ _ h => h,
    Field.keeps_of_set fun _ _ h => h, keeps_params fun _ _ h _ => h, List.forall_mem_nil _⟩

theorem yields_method (levels : Nat) : (method.read levels).Yields MethodDef.WellFormed := by
  refine Record.yields_read ⟨List.forall_mem_nil _, wellFormed_void⟩ ?_ levels
  simp only [method, List.forall_mem_cons]
  exact ⟨Field.keeps_of_set fun _ _ h => { h with },
    Field.keeps_of_set fun _ _ h => { h with },
    Field.keeps_of_set fun _ _ h => { h with },
    Field.keeps_of_set fun _ _ h => { h with },
    keeps_params fun _ _ hparams h => { h with params := hparams },
    Field.keeps_mk yields_reference fun _ _ hreturns h => { h with returns := hreturns },
    List.forall_mem_nil _⟩

theorem yields_signature (levels : Nat) :
    (signature.read levels).Yields Signature.WellFormed := by
  refine Record.yields_read ⟨List.forall_mem_nil _, wellFormed_void⟩ ?_ levels
  simp only [signature, List.forall_mem_cons]
  exact ⟨keeps_params fun _ _ hparams h => { h with params := hparams },
    Field.keeps_mk yields_reference fun _ _ hreturns h => { h with returns := hreturns },
    List.forall_mem_nil _⟩

theorem yields_event (levels : Nat) : (event.read levels).Yields EventDef.WellFormed := by
  refine Record.yields_read ⟨wellFormed_void, List.forall_mem_nil _, wellFormed_void⟩ ?_ levels
  simp only [event, List.forall_mem_cons]
  exact ⟨Field.keeps_of_set fun _ _ h => { h with },
    Field.keeps_mk yields_reference fun _ _ hhandler h => { h with handler := hhandler },
    Field.keeps_of_set fun _ _ h => { h with },
    Field.keeps_of_set fun _ _ h => { h with },
    Field.keeps_of_set fun _ _ h => { h with },
    Field.keeps_of_set fun _ _ h => { h with },
    Field.keeps_mk yields_signature fun _ _ hsignature h => { h with signature := hsignature },
    List.forall_mem_nil _⟩

theorem wellFormed_blank : type.blank.WellFormed where
  base _ h := by cases h
  genericArgs := List.forall_mem_nil _
  fields := List.forall_mem_nil _
  properties := List.forall_mem_nil _
  constructors := List.forall_mem_nil _
  methods := List.forall_mem_nil _
  events := List.forall_mem_nil _

theorem yields_type (levels : Nat) : (type.read levels).Yields TypeDef.WellFormed := by
  refine Record.yields_read wellFormed_blank ?_ levels
  simp only [type, List.forall_mem_cons]
  exact ⟨Field.keeps_of_set fun _ _ h => { h with },
    Field.keeps_of_set fun _ _ h => { h with }, Field.keeps_of_set fun _ _ h => { h with },
    Field.keeps_of_set fun _ _ h => { h with }, Field.keeps_of_set fun _ _ h => { h with },
    Field.keeps_of_set fun _ _ h => { h with }, Field.keeps_of_set fun _ _ h => { h with },
    Field.keeps_mk (fun levels => (yields_reference levels).optional) fun _ _ hbase h =>
      { h with base := hbase },
    Field.keeps_mk (Reader.yields_list yields_reference) fun _ _ hargs h =>
      { h with genericArgs := hargs },
    Field.keeps_of_set fun _ _ h => { h with },
    Field.keeps_mk (Reader.yields_list yields_field) fun _ _ hfields h =>
      { h with fields := hfields },
    Field.keeps_mk (Reader.yields_list yields_property) fun _ _ hproperties h =>
      { h with properties := hproperties },
    Field.keeps_mk (Reader.yields_list yields_constructor) fun _ _ hconstructors h =>
      { h with constructors := hconstructors },
    Field.keeps_mk (Reader.yields_list yields_method) fun _ _ hmethods h =>
      { h with methods := hmethods },
    Field.keeps_mk (Reader.yields_list yields_event) fun _ _ hevents h =>
      { h with events := hevents },
    List.forall_mem_nil _⟩

theorem yields_assembly (levels : Nat) :
    (assembly.read levels).Yields fun a => ∀ d ∈ a.types, d.WellFormed := by
  refine Record.yields_read (List.forall_mem_nil _) ?_ levels
  simp only [assembly, List.forall_mem_cons]
  exact ⟨Field.keeps_of_set fun _ _ h => h,
    Field.keeps_mk (Reader.yields_list yields_type) fun _ _ h _ => h,
    Field.keeps_of_set fun _ _ h => h, List.forall_mem_nil _⟩

theorem yields_whole (levels : Nat) :
    (whole.read levels).Yields fun as => ∀ a ∈ as, ∀ d ∈ a.types, d.WellFormed := by
  refine Record.yields_read (List.forall_mem_nil _) ?_ levels
  simp only [whole, List.forall_mem_cons]
  exact ⟨Field.keeps_mk (Reader.yields_list yields_assembly) fun _ _ h _ => h,
    List.forall_mem_nil _⟩

/-- No definition of a manifest has a reference that could not have been written. -/
theorem wellFormed_of_ofJson {text : String} {assemblies : List AssemblyDef}
    (h : ofJson text = .ok assemblies) :
    ∀ d ∈ (MetadataSet.ofAssemblies assemblies).definitions, d.WellFormed := by
  intro d hd
  obtain ⟨a, ha, hd⟩ := List.mem_flatMap.mp hd
  exact Reader.of_document yields_whole h a ha d hd

end Manifest

end Typings
