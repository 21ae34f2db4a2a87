import Typings.Proofs.Declaration.Listed
import Typings.Proofs.Text.ByteOrder

/-! # Groups by namespace

The groups of a graph are a partition of its types, and one that can be told from the types alone:
namespaces and full names come in the order of their bytes, so there is one way only to write the
groups down. What is admitted first does not show.
-/
namespace Typings

open Text (Increasing increasing_iff)

theorem spacesOf_increasing (ds : List TypeDef) : Increasing (spacesOf ds) :=
  increasing_iff.mpr (pairwise_lt_mergeSort_key id (by simpa using nodup_eraseDups _))

namespace TypeGraph

variable {g : TypeGraph}

/-- The full names of the groups one behind the other. -/
def namesByNamespace (g : TypeGraph) : List String :=
  g.byNamespace.flatMap fun group => group.2.map Descriptor.fullName

/-- The groups with the definitions in them. -/
def definitionsByNamespace (g : TypeGraph) : List (String × List TypeDef) :=
  g.byNamespace.map fun group => (group.1, group.2.map Descriptor.definition)

theorem map_fst_byNamespace (g : TypeGraph) : g.byNamespace.map Prod.fst = g.spaces := by
  rw [byNamespace, List.map_map]
  exact List.map_id _

theorem namesByNamespace_eq (g : TypeGraph) :
    g.namesByNamespace = g.listedTypes.map Descriptor.fullName := by
  rw [namesByNamespace, listedTypes, List.map_flatMap]

theorem Linked.spaces_increasing (h : g.Linked) : Increasing g.spaces := by
  rw [h.spaces_eq]
  exact spacesOf_increasing _

/-- Nothing comes before the empty name. -/
theorem Linked.head?_spaces (h : g.Linked) (hempty : "" ∈ g.spaces) :
    g.spaces.head? = some "" := by
  have hsorted := increasing_iff.mp h.spaces_increasing
  cases hspaces : g.spaces with
  | nil => rw [hspaces] at hempty; cases hempty
  | cons space rest =>
    rw [hspaces] at hempty hsorted
    rcases List.mem_cons.mp hempty with rfl | hrest
    · rfl
    · have hbefore := (List.pairwise_cons.mp hsorted).1 "" hrest
      exact absurd (String.lt_iff.mp hbefore) (List.not_lt_nil _)

theorem inSpace_ne_nil {space : String} (h : space ∈ g.spaces) : g.inSpace space ≠ [] := by
  obtain ⟨x, hx, hnested, hspace⟩ := mem_spaces_iff.mp h
  exact List.ne_nil_of_mem (mem_inSpace_iff.mpr ⟨hx, hnested, hspace⟩)

theorem Indexed.inSpace_increasing (h : g.Indexed) (space : String) :
    Increasing ((g.inSpace space).map Descriptor.fullName) := by
  refine increasing_iff.mpr (List.pairwise_map.mpr ?_)
  refine pairwise_lt_mergeSort_key Descriptor.fullName (List.Nodup.sublist ?_ h.fullNames_nodup)
  exact (List.filter_sublist.trans List.filter_sublist).map _

theorem Linked.nodup_definitions (h : g.Linked) : g.definitions.Nodup :=
  List.Nodup.of_map _ (h.fullNames_eq ▸ h.fullNames_nodup)

theorem Linked.definitionsByNamespace_eq (h : g.Linked) :
    g.definitionsByNamespace = groupsOf g.definitions := by
  rw [definitionsByNamespace, h.byNamespace_eq, List.map_map]
  refine (List.map_congr_left fun group _ => ?_).trans (List.map_id _)
  exact Prod.ext rfl ((List.map_map ..).trans (List.map_id _))

theorem Linked.namesByNamespace_eq_flatMap (h : g.Linked) :
    g.namesByNamespace =
      g.definitionsByNamespace.flatMap fun group => group.2.map TypeDef.fullName := by
  rw [namesByNamespace, definitionsByNamespace, List.flatMap_map]
  refine List.flatMap_congr fun group hgroup => ?_
  rw [List.map_map]
  obtain ⟨-, hspace⟩ := mem_byNamespace_iff.mp hgroup
  refine List.map_congr_left fun x hx => h.fullName_eq x ?_
  rw [← hspace] at hx
  exact (mem_inSpace_iff.mp hx).1

/-- The groups of what any operations lead to, over any source. Their namespaces are in strictly
increasing order of bytes, the global one in front; no group is empty; a group holds types of its
namespace only, in strictly increasing order of full names; and together the groups hold each type
once. Whatever other operations admit the same definitions, and in whatever order, the groups are
the same, and so is the sequence of full names. -/
theorem byNamespace_canonical (src : Source) (ops : List Operation) :
    let g := empty.applyAll src ops
    Increasing (g.byNamespace.map Prod.fst) ∧
      (∀ types, ("", types) ∈ g.byNamespace → g.byNamespace.head? = some ("", types)) ∧
      (∀ space types, (space, types) ∈ g.byNamespace → types ≠ [] ∧
        Increasing (types.map Descriptor.fullName) ∧ ∀ x ∈ types, x.definition.space = space) ∧
      (g.byNamespace.flatMap Prod.snd).Perm g.descriptors.toList ∧
      g.namesByNamespace.Nodup ∧
      ∀ src' ops', let g' := empty.applyAll src' ops'
        (∀ d, d ∈ g.definitions ↔ d ∈ g'.definitions) →
          g.definitionsByNamespace = g'.definitionsByNamespace ∧
            g.namesByNamespace = g'.namesByNamespace := by
  intro g
  have h : g.Linked := linked_applyAll src ops
  have hperm : g.listedTypes.Perm g.descriptors.toList :=
    h.listedTypes_perm (screened_applyAll src ops)
  refine ⟨?_, ?_, ?_, hperm, ?_, ?_⟩
  · rw [map_fst_byNamespace]
    exact h.spaces_increasing
  · intro types ht
    obtain ⟨hspace, rfl⟩ := mem_byNamespace_iff.mp ht
    rw [byNamespace, List.head?_map, h.head?_spaces hspace]
    rfl
  · intro space types ht
    obtain ⟨hspace, rfl⟩ := mem_byNamespace_iff.mp ht
    exact ⟨inSpace_ne_nil hspace, h.inSpace_increasing space, fun x hx =>
      (mem_inSpace_iff.mp hx).2.2⟩
  · rw [namesByNamespace_eq]
    exact (hperm.map _).nodup_iff.mpr h.fullNames_nodup
  · intro src' ops' g' hsame
    have h' : g'.Linked := linked_applyAll src' ops'
    have hdefs : g.definitions.Perm g'.definitions :=
      (List.perm_ext_iff_of_nodup h.nodup_definitions h'.nodup_definitions).mpr hsame
    have hgroups : g.definitionsByNamespace = g'.definitionsByNamespace := by
      rw [h.definitionsByNamespace_eq, h'.definitionsByNamespace_eq]
      exact groupsOf_perm hdefs (h.fullNames_eq ▸ h.fullNames_nodup)
    refine ⟨hgroups, ?_⟩
    rw [h.namesByNamespace_eq_flatMap, h'.namesByNamespace_eq_flatMap, hgroups]

end TypeGraph

end Typings
