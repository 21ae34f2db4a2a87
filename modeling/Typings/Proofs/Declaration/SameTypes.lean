import Typings.Declaration.Layout
import Typings.Listing
import Typings.Proofs.Graph.DeclaredOrder

/-! # What a declaration file depends on

Two linked graphs of the same definitions, admitted in whatever order, have the same declarations
and the same listing. Positions differ between them, so nothing written may rest on one: a token
asks for the definition of a name, and a header for the full name of a base.
-/
namespace Typings.TypeGraph

variable {g g₁ g₂ : TypeGraph}

/-- The definition of a full name. -/
def definitionOf (g : TypeGraph) (name : String) : Option TypeDef :=
  (g.find? name).map Descriptor.definition

/-- The full name of the type that a descriptor has as its base. -/
def baseName (g : TypeGraph) (x : Descriptor) : Option String :=
  (x.base.bind g.get?).map Descriptor.fullName

theorem Indexed.definitionOf_eq_some_iff (h : g.Indexed) {name : String} {d : TypeDef} :
    g.definitionOf name = some d ↔ d ∈ g.definitions ∧ d.fullName = name := by
  rw [definitionOf, Option.map_eq_some_iff]
  constructor
  · rintro ⟨x, hx, rfl⟩
    obtain ⟨hmem, hn⟩ := h.find?_eq_some_iff.mp hx
    exact ⟨mem_definitions_iff.mpr ⟨x, hmem, rfl⟩, h.fullName_eq x hmem ▸ hn⟩
  · rintro ⟨hd, hn⟩
    obtain ⟨x, hx, rfl⟩ := mem_definitions_iff.mp hd
    exact ⟨x, h.find?_eq_some_iff.mpr ⟨hx, (h.fullName_eq x hx).trans hn⟩, rfl⟩

theorem Linked.find?_eq (h : g.Linked) (name : String) :
    g.find? name = (g.definitionOf name).map g.descriptorOf := by
  cases hx : g.find? name with
  | none => simp [definitionOf, hx]
  | some x =>
    have hmem := (h.find?_eq_some_iff.mp hx).1
    simp [definitionOf, hx, ← h.eq_descriptorOf hmem]

/-- The base of a linked descriptor is named by its definition, if that name is in the graph. -/
theorem Linked.baseName_descriptorOf (h : g.Linked) (d : TypeDef) :
    g.baseName (g.descriptorOf d) =
      (d.base.bind TypeRef.plainName?).bind fun name =>
        (g.definitionOf name).map TypeDef.fullName := by
  have hfind : ∀ name, (g.find? name).map Descriptor.fullName =
      (g.definitionOf name).map TypeDef.fullName := by
    intro name
    rw [h.find?_eq, Option.map_map]
    rfl
  unfold baseName descriptorOf baseOf
  cases d.base.bind TypeRef.plainName? with
  | none => rfl
  | some name => exact hfind name

/-- Groups of definitions without what is not declared. -/
def declaredGroups (ds : List TypeDef) : List (String × List TypeDef) :=
  ((groupsOf ds).map fun (space, ds) =>
      (space, ds.filter fun d => (Descriptor.of d).isDeclared)).filter
    fun (_, ds) => !ds.isEmpty

theorem Linked.declaredTypes_eq (h : g.Linked) :
    g.declaredTypes =
      (declaredGroups g.definitions).map fun (space, ds) => (space, ds.map g.descriptorOf) := by
  rw [declaredTypes, declaredGroups, h.byNamespace_eq]
  induction groupsOf g.definitions with
  | nil => rfl
  | cons group groups ih =>
    obtain ⟨space, ds⟩ := group
    have hfilter : (ds.map g.descriptorOf).filter Descriptor.isDeclared =
        (ds.filter fun d => (Descriptor.of d).isDeclared).map g.descriptorOf := List.filter_map
    simp only [List.map_cons, List.filter_cons, hfilter, List.isEmpty_map]
    split
    · rw [ih, List.map_cons]
    · exact ih

/-! ## Two graphs of the same definitions -/

/-- Two linked graphs hold the same definitions. -/
structure SameTypes (g₁ g₂ : TypeGraph) : Prop where
  left : g₁.Linked
  right : g₂.Linked
  perm : g₁.definitions.Perm g₂.definitions

namespace SameTypes

theorem definitionOf_eq (h : SameTypes g₁ g₂) : g₁.definitionOf = g₂.definitionOf := by
  funext name
  refine Option.ext fun d => ?_
  rw [h.left.definitionOf_eq_some_iff, h.right.definitionOf_eq_some_iff, h.perm.mem_iff]

theorem tokenOf_eq (h : SameTypes g₁ g₂) : g₁.tokenOf = g₂.tokenOf := by
  have hplain : g₁.isPlainType = g₂.isPlainType := by
    funext name
    rw [isPlainType, isPlainType, h.left.find?_eq, h.right.find?_eq, h.definitionOf_eq]
    cases g₂.definitionOf name <;> rfl
  funext ty
  rw [tokenOf, tokenOf, hplain]

theorem baseName_eq (h : SameTypes g₁ g₂) (d : TypeDef) :
    g₁.baseName (g₁.descriptorOf d) = g₂.baseName (g₂.descriptorOf d) := by
  rw [h.left.baseName_descriptorOf, h.right.baseName_descriptorOf, h.definitionOf_eq]

theorem parameters_eq (h : SameTypes g₁ g₂) (d : TypeDef) :
    g₁.parameters (g₁.descriptorOf d) = g₂.parameters (g₂.descriptorOf d) := by
  have htype : g₁.parameterToken (g₁.descriptorOf d) = g₂.parameterToken (g₂.descriptorOf d) := by
    funext ty
    unfold parameterToken
    rw [h.tokenOf_eq]
    rfl
  funext params
  simp only [parameters, parameter, htype]

theorem members_eq (h : SameTypes g₁ g₂) (config : Config) (d : TypeDef) :
    g₁.members config (g₁.descriptorOf d) = g₂.members config (g₂.descriptorOf d) := by
  have hparams := h.parameters_eq d
  have hfield : g₁.fieldMember (g₁.descriptorOf d) = g₂.fieldMember (g₂.descriptorOf d) := by
    funext f
    rw [fieldMember, fieldMember, h.tokenOf_eq]
    rfl
  have hproperty : g₁.propertyMember config (g₁.descriptorOf d) =
      g₂.propertyMember config (g₂.descriptorOf d) := by
    funext p
    rw [propertyMember, propertyMember, h.tokenOf_eq]
    rfl
  have hconstructor : g₁.constructorMember (g₁.descriptorOf d) =
      g₂.constructorMember (g₂.descriptorOf d) := by
    funext c
    rw [constructorMember, constructorMember, hparams]
  have hmethod : g₁.methodMember (g₁.descriptorOf d) = g₂.methodMember (g₂.descriptorOf d) := by
    funext m
    rw [methodMember, methodMember, h.tokenOf_eq, hparams]
    rfl
  have hevent : g₁.eventMember (g₁.descriptorOf d) = g₂.eventMember (g₂.descriptorOf d) := by
    funext e
    rw [eventMember, eventMember, h.tokenOf_eq, hparams]
    rfl
  rw [members, members, hfield, hproperty, hconstructor, hmethod, hevent]
  rfl

theorem block_eq (h : SameTypes g₁ g₂) (config : Config) (d : TypeDef) :
    g₁.block config (g₁.descriptorOf d) = g₂.block config (g₂.descriptorOf d) := by
  have hbase : g₁.declaredBase (g₁.descriptorOf d) = g₂.declaredBase (g₂.descriptorOf d) := by
    have := h.baseName_eq d
    rw [baseName, baseName] at this
    rw [declaredBase, declaredBase, this]
    rfl
  rw [block, block, hbase, h.members_eq]
  rfl

theorem document_eq (h : SameTypes g₁ g₂) (config : Config) :
    g₁.document config = g₂.document config := by
  have hnames : (g₁.definitions.map TypeDef.fullName).Nodup :=
    h.left.fullNames_eq ▸ h.left.fullNames_nodup
  rw [document, document, h.left.declaredTypes_eq, h.right.declaredTypes_eq, declaredGroups,
    declaredGroups, groupsOf_perm h.perm hnames, List.map_map, List.map_map]
  refine List.map_congr_left fun ⟨space, ds⟩ _ => ?_
  simp only [Function.comp_apply, List.map_map, SpaceBlock.mk.injEq, true_and]
  exact List.map_congr_left fun d _ => h.block_eq config d

theorem listing_eq (h : SameTypes g₁ g₂) : g₁.listing = g₂.listing := by
  have hnames : (g₁.definitions.map TypeDef.fullName).Nodup :=
    h.left.fullNames_eq ▸ h.left.fullNames_nodup
  have hlines : ∀ g : TypeGraph, g.Linked →
      g.listedTypes.map (fun x => x.listed ++ "\n") =
        (groupsOf g.definitions).flatMap fun (_, ds) =>
          ds.map fun d => (Descriptor.of d).listed ++ "\n" := by
    intro g hg
    rw [listedTypes, hg.byNamespace_eq, List.map_flatMap, List.flatMap_map]
    refine List.flatMap_congr fun ⟨space, ds⟩ _ => ?_
    rw [List.map_map]
    rfl
  rw [listing, listing, hlines g₁ h.left, hlines g₂ h.right, groupsOf_perm h.perm hnames]

end SameTypes

end Typings.TypeGraph
