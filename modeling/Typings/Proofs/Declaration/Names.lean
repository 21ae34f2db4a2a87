import Typings.Listing
import Typings.Proofs.Declaration.Declared
import Typings.Proofs.Graph.DeclaredOrder

/-! # Names of declarations

A type has one block at most, and full names tell types apart. A header prints less than the full
name: what stands behind the last backtick of a name, and the backtick itself, is left out. So two
blocks of one namespace bear one name exactly when that part alone tells their types apart.
-/
namespace Typings

theorem beforeLast_isPrefix (mark : Char) (cs : List Char) : beforeLast mark cs <+: cs := by
  unfold beforeLast
  split
  · have hsuffix : (cs.reverse.dropWhile (· ≠ mark)).drop 1 <:+ cs.reverse :=
      (List.drop_suffix _ _).trans (List.dropWhile_suffix _)
    simpa using List.reverse_prefix.mpr hsuffix
  · exact List.prefix_refl _

namespace TypeDef

/-- What a header leaves out of the name: the last backtick and what follows it. -/
def arity (d : TypeDef) : String :=
  String.ofList (d.name.toList.drop (beforeLast '`' d.name.toList).length)

theorem displayName_append_arity (d : TypeDef) : d.displayName ++ d.arity = d.name := by
  have hprefix := List.prefix_iff_eq_append.mp (beforeLast_isPrefix '`' d.name.toList)
  rw [← String.toList_inj]
  simpa [displayName, arity, String.toList_append] using hprefix

theorem arity_eq_empty {d : TypeDef} (h : '`' ∉ d.name.toList) : d.arity = "" := by
  rw [arity, beforeLast_eq_self_iff.mpr h, List.drop_length, String.ofList_nil]

end TypeDef

namespace TypeGraph

variable {g : TypeGraph} {config : Config} {x y : Descriptor}

/-- The declared types in the order of their blocks. -/
def declared (g : TypeGraph) : List Descriptor := g.declaredTypes.flatMap Prod.snd

/-- Leaving out what is not declared commutes with going through the groups. -/
theorem declared_eq_filter (g : TypeGraph) :
    g.declared = g.listedTypes.filter Descriptor.isDeclared := by
  rw [declared, flatMap_declaredTypes, listedTypes, List.filter_flatMap]
  refine List.flatMap_congr fun (space, types) _ => ?_
  cases h : types.filter Descriptor.isDeclared <;> simp [h]

theorem mem_listedTypes_iff : x ∈ g.listedTypes ↔ x ∈ g.descriptors ∧ x.isNested = false := by
  rw [listedTypes, List.mem_flatMap]
  constructor
  · intro h
    obtain ⟨⟨space, types⟩, ht, hx⟩ := h
    obtain ⟨-, rfl⟩ := mem_byNamespace_iff.mp ht
    obtain ⟨hmem, hn, -⟩ := mem_inSpace_iff.mp hx
    exact ⟨hmem, hn⟩
  · intro h
    have hspace : x.space ∈ g.spaces := mem_spaces_iff.mpr ⟨x, h.1, h.2, rfl⟩
    exact ⟨(x.space, g.inSpace x.space), mem_byNamespace_iff.mpr ⟨hspace, rfl⟩,
      mem_inSpace_iff.mpr ⟨h.1, h.2, rfl⟩⟩

theorem mem_declared_iff : x ∈ g.declared ↔ x ∈ g.descriptors ∧ x.isDeclared = true := by
  rw [declared_eq_filter, List.mem_filter, mem_listedTypes_iff]
  constructor
  · intro h
    exact ⟨h.1.1, h.2⟩
  · intro h
    exact ⟨⟨h.1, Descriptor.isNested_of_isDeclared h.2⟩, h.2⟩

/-- The blocks of a document are those of the declared types, in order. -/
theorem placed_document (g : TypeGraph) (config : Config) :
    (g.document config).placed = g.declared.map fun x => (x.space, g.block config x) := by
  rw [Document.placed, document, declared, List.flatMap_map, List.map_flatMap]
  refine List.flatMap_congr fun ⟨space, types⟩ ht => ?_
  rw [List.map_map]
  refine List.map_congr_left fun x hx => ?_
  obtain ⟨-, -, hs⟩ := mem_declaredTypes_iff.mp ⟨types, ht, hx⟩
  rw [Function.comp_apply, hs]

theorem nodup_spaces (g : TypeGraph) : g.spaces.Nodup := by
  rw [spaces, (List.mergeSort_perm _ _).nodup_iff]
  exact nodup_eraseDups _

theorem Indexed.nodup_inSpace (h : g.Indexed) (space : String) : (g.inSpace space).Nodup := by
  have hall : g.descriptors.toList.Nodup := List.Nodup.of_map _ h.fullNames_nodup
  rw [inSpace, (List.mergeSort_perm _ _).nodup_iff, topLevel]
  exact (hall.filter _).filter _

/-- A type stands in one group, and there once. -/
theorem Indexed.nodup_listedTypes (h : g.Indexed) : g.listedTypes.Nodup := by
  rw [listedTypes, byNamespace, List.flatMap_map, List.nodup_flatMap]
  refine ⟨fun space _ => h.nodup_inSpace space, g.nodup_spaces.imp ?_⟩
  intro a b hab x hxa hxb
  have ha := (mem_inSpace_iff.mp hxa).2.2
  have hb := (mem_inSpace_iff.mp hxb).2.2
  exact hab (ha.symm.trans hb)

theorem Indexed.nodup_declared (h : g.Indexed) : g.declared.Nodup := by
  rw [declared_eq_filter]
  exact h.nodup_listedTypes.filter _

/-- In one namespace, a header and what it leaves out make up the full name. -/
theorem Indexed.eq_of_displayName_eq (h : g.Indexed) (hx : x ∈ g.declared) (hy : y ∈ g.declared)
    (hspace : x.space = y.space) (hname : x.displayName = y.displayName)
    (harity : x.definition.arity = y.definition.arity) : x = y := by
  obtain ⟨hx, hxd⟩ := mem_declared_iff.mp hx
  obtain ⟨hy, hyd⟩ := mem_declared_iff.mp hy
  have hnames : x.definition.name = y.definition.name := by
    rw [← x.definition.displayName_append_arity, ← y.definition.displayName_append_arity, harity]
    exact congrArg (· ++ y.definition.arity) hname
  refine h.eq_of_fullName_eq hx hy ?_
  rw [h.fullName_eq x hx, h.fullName_eq y hy,
    TypeDef.fullName_eq_pathIn (Descriptor.isNested_of_isDeclared hxd),
    TypeDef.fullName_eq_pathIn (Descriptor.isNested_of_isDeclared hyd), hnames]
  exact congrArg (pathIn · y.definition.name) hspace

/-- The blocks of a file belong to the declared types, one to each, and no two of those have one
full name. Where two blocks of a namespace bear one name, their types differ in what the header
leaves out; so types without a backtick in their names never share both. -/
theorem declared_names_differ (src : Source) (ops : List Operation) (config : Config) :
    let g := empty.applyAll src ops
    (g.document config).placed = g.declared.map (fun x => (x.space, g.block config x)) ∧
      (∀ x, x ∈ g.declared ↔ x ∈ g.descriptors ∧ x.isDeclared = true) ∧
      g.declared.Pairwise (fun x y => x.fullName ≠ y.fullName) ∧
      g.declared.Pairwise (fun x y => x.space = y.space →
        (g.block config x).name = (g.block config y).name →
          x.definition.arity ≠ y.definition.arity ∧
            ('`' ∈ x.definition.name.toList ∨ '`' ∈ y.definition.name.toList)) := by
  intro g
  have h : g.Indexed := (linked_applyAll src ops).toIndexed
  refine ⟨g.placed_document config, fun x => mem_declared_iff, ?_, ?_⟩
  · refine h.nodup_declared.imp_of_mem ?_
    intro x y hx hy hne heq
    exact hne (h.eq_of_fullName_eq (mem_declared_iff.mp hx).1 (mem_declared_iff.mp hy).1 heq)
  · refine h.nodup_declared.imp_of_mem ?_
    intro x y hx hy hne hspace hname
    have harity : x.definition.arity ≠ y.definition.arity :=
      fun harity => hne (h.eq_of_displayName_eq hx hy hspace hname harity)
    refine ⟨harity, ?_⟩
    by_contra hmark
    rw [not_or] at hmark
    exact harity ((TypeDef.arity_eq_empty hmark.1).trans (TypeDef.arity_eq_empty hmark.2).symm)

/-- A plain type and a generic one of the same name are declared under that name both. -/
theorem plain_and_generic_share_name :
    let plain : TypeDef := { space := "N", name := "Box" }
    let generic : TypeDef := { space := "N", name := "Box`1", genericArgs := [.param "T"] }
    let set := MetadataSet.ofAssemblies [{ name := "A", types := [plain, generic] }]
    let g := empty.applyAll set.source [.seed (.assembly "A")]
    ¬ ∀ x ∈ g.declared, ∀ y ∈ g.declared, x.fullName ≠ y.fullName →
      ¬ (x.space = y.space ∧ (g.block {} x).name = (g.block {} y).name) := by
  intro plain generic set g hall
  have h : g.GrownFrom set.source [.assembly "A"] :=
    grownFrom_applyAll (MetadataSet.faithful_source _) [.seed (.assembly "A")]
  -- The seed offers both types of the assembly, and both can be admitted.
  have hnames : (set.definitions.map TypeDef.fullName).Nodup := by decide +kernel
  have hplain : plain ∈ g.definitions :=
    h.mem_of_brings hnames List.mem_cons_self
      ⟨_, ⟨_, rfl, List.mem_cons_self, rfl, rfl⟩, by decide, by decide, by decide⟩
  have hgeneric : generic ∈ g.definitions :=
    h.mem_of_brings hnames List.mem_cons_self
      ⟨_, ⟨_, rfl, List.mem_cons_of_mem _ List.mem_cons_self, rfl, rfl⟩,
        by decide, by decide, by decide⟩
  obtain ⟨x, hx, hxd⟩ := mem_definitions_iff.mp hplain
  obtain ⟨y, hy, hyd⟩ := mem_definitions_iff.mp hgeneric
  have hdeclared : ∀ z : Descriptor, z.isDeclared = (Descriptor.of z.definition).isDeclared :=
    fun _ => rfl
  have hxm : x ∈ g.declared :=
    mem_declared_iff.mpr ⟨hx, by rw [hdeclared, hxd]; decide⟩
  have hym : y ∈ g.declared :=
    mem_declared_iff.mpr ⟨hy, by rw [hdeclared, hyd]; decide⟩
  refine hall x hxm y hym ?_ ⟨?_, ?_⟩
  · rw [h.fullName_eq x hx, h.fullName_eq y hy, hxd, hyd]
    decide
  · rw [Descriptor.space, Descriptor.space, hxd, hyd]
  · change x.definition.displayName = y.definition.displayName
    rw [hxd, hyd]
    decide +kernel

end TypeGraph

end Typings
