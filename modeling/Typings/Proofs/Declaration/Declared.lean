import Typings.Declaration.Document
import Typings.Proofs.Graph.Reachability

/-! # What a document declares

A document has a block for each admitted type that is not skipped and for nothing else. Its path is
the namespace around it and the name in its header, which is the full name of the type exactly when
there is no backtick to cut the name at. Admission keeps nested types out, so that a generic
argument that is no parameter is the only reason left to skip one.
-/
namespace Typings

/-- A name inside a namespace; the global one does not show. -/
def pathIn (space name : String) : String := if space.isEmpty then name else space ++ "." ++ name

theorem pathIn_inj {space a b : String} : pathIn space a = pathIn space b ↔ a = b := by
  unfold pathIn
  split
  · exact Iff.rfl
  · rw [String.append_right_inj]

theorem beforeLast_eq_self_iff {mark : Char} {cs : List Char} :
    beforeLast mark cs = cs ↔ mark ∉ cs := by
  constructor
  · intro h hmem
    have hlen := congrArg List.length h
    rw [beforeLast, if_pos hmem, List.length_reverse, List.length_drop] at hlen
    have hle := (List.dropWhile_sublist (· ≠ mark) (l := cs.reverse)).length_le
    have hpos : 0 < cs.length := List.length_pos_of_mem hmem
    rw [List.length_reverse] at hle
    omega
  · intro h
    rw [beforeLast, if_neg h]

namespace TypeDef

theorem displayName_eq_name_iff {d : TypeDef} : d.displayName = d.name ↔ '`' ∉ d.name.toList := by
  rw [← beforeLast_eq_self_iff, displayName, ← String.toList_inj, String.toList_ofList]

theorem fullName_eq_pathIn {d : TypeDef} (h : d.isNested = false) :
    d.fullName = pathIn d.space d.name := by
  have hnone : d.declaringType = none := by simpa [isNested] using h
  rw [fullName, hnone, pathIn]

end TypeDef

namespace Descriptor

/-- Where the declaration of a type stands inside the root namespace. -/
def declaredPath (x : Descriptor) : String := pathIn x.space x.displayName

theorem isNested_of_isDeclared {x : Descriptor} (h : x.isDeclared = true) : x.isNested = false := by
  cases hn : x.isNested with
  | false => rfl
  | true => simp [isDeclared, skipReason?, hn] at h

theorem isDeclared_of_not_isGeneric {x : Descriptor} (hn : x.isNested = false)
    (hg : x.isGeneric = false) : x.isDeclared = true := by
  have hargs : x.genericArgs = [] := by
    simpa [isGeneric, TypeDef.isGeneric, genericArgs] using hg
  simp [isDeclared, skipReason?, hn, hargs]

end Descriptor

namespace Document

/-- The blocks of a document, each with the namespace around it. -/
def placed (doc : Document) : List (String × Block) :=
  doc.flatMap fun s => s.types.map fun b => (s.name, b)

def blocks (doc : Document) : List Block := doc.placed.map Prod.snd

/-- Where the blocks of a document stand inside the root namespace. -/
def paths (doc : Document) : List String := doc.placed.map fun (space, b) => pathIn space b.name

end Document

namespace TypeGraph

variable {g : TypeGraph} {config : Config}

theorem mem_declaredTypes_iff {space : String} {x : Descriptor} :
    (∃ types, (space, types) ∈ g.declaredTypes ∧ x ∈ types) ↔
      x ∈ g.descriptors ∧ x.isDeclared = true ∧ x.space = space := by
  constructor
  · rintro ⟨types, ht, hx⟩
    obtain ⟨⟨s, all⟩, hall, he⟩ := List.mem_map.mp (List.mem_filter.mp ht).1
    cases he
    obtain ⟨hx, hd⟩ := List.mem_filter.mp hx
    obtain ⟨-, rfl⟩ := mem_byNamespace_iff.mp hall
    obtain ⟨hmem, -, hs⟩ := mem_inSpace_iff.mp hx
    exact ⟨hmem, hd, hs⟩
  · rintro ⟨hmem, hd, rfl⟩
    have hn := Descriptor.isNested_of_isDeclared hd
    have hx : x ∈ (g.inSpace x.space).filter Descriptor.isDeclared :=
      List.mem_filter.mpr ⟨mem_inSpace_iff.mpr ⟨hmem, hn, rfl⟩, hd⟩
    have hspace : (x.space, g.inSpace x.space) ∈ g.byNamespace :=
      mem_byNamespace_iff.mpr ⟨mem_spaces_iff.mpr ⟨x, hmem, hn, rfl⟩, rfl⟩
    refine ⟨_, List.mem_filter.mpr ⟨List.mem_map.mpr ⟨_, hspace, rfl⟩, ?_⟩, hx⟩
    simpa using List.ne_nil_of_mem hx

/-- Going through the groups of declared types is going through all groups and passing over those
that have none. -/
theorem flatMap_declaredTypes {α : Type} (g : TypeGraph) (f : String × List Descriptor → List α) :
    g.declaredTypes.flatMap f = g.byNamespace.flatMap fun (space, types) =>
      if (types.filter Descriptor.isDeclared).isEmpty then []
      else f (space, types.filter Descriptor.isDeclared) := by
  rw [declaredTypes]
  induction g.byNamespace with
  | nil => rfl
  | cons group groups ih =>
    obtain ⟨space, types⟩ := group
    simp only [List.map_cons, List.filter_cons, List.flatMap_cons, ← ih]
    cases (types.filter Descriptor.isDeclared).isEmpty <;> rfl

/-- The blocks are those of the declared types, each in the namespace of its type. -/
theorem mem_placed_document_iff {space : String} {b : Block} :
    (space, b) ∈ (g.document config).placed ↔
      ∃ x ∈ g.descriptors, x.isDeclared = true ∧ x.space = space ∧ g.block config x = b := by
  constructor
  · intro h
    obtain ⟨_, hs, hb⟩ := List.mem_flatMap.mp h
    obtain ⟨⟨s, types⟩, ht, rfl⟩ := List.mem_map.mp hs
    obtain ⟨_, hb, he⟩ := List.mem_map.mp hb
    cases he
    obtain ⟨x, hx, rfl⟩ := List.mem_map.mp hb
    obtain ⟨hmem, hd, hspace⟩ := mem_declaredTypes_iff.mp ⟨types, ht, hx⟩
    exact ⟨x, hmem, hd, hspace, rfl⟩
  · rintro ⟨x, hmem, hd, hs, rfl⟩
    obtain ⟨types, ht, hx⟩ := mem_declaredTypes_iff.mpr ⟨hmem, hd, hs⟩
    refine List.mem_flatMap.mpr ⟨_, List.mem_map.mpr ⟨_, ht, rfl⟩, ?_⟩
    exact List.mem_map.mpr ⟨_, List.mem_map.mpr ⟨x, hx, rfl⟩, rfl⟩

theorem mem_blocks_document_iff {b : Block} :
    b ∈ (g.document config).blocks ↔
      ∃ x ∈ g.descriptors, x.isDeclared = true ∧ g.block config x = b := by
  constructor
  · intro h
    obtain ⟨⟨space, _⟩, hp, rfl⟩ := List.mem_map.mp h
    obtain ⟨x, hx, hd, -, hb⟩ := mem_placed_document_iff.mp hp
    exact ⟨x, hx, hd, hb⟩
  · rintro ⟨x, hx, hd, rfl⟩
    exact List.mem_map.mpr ⟨_, mem_placed_document_iff.mpr ⟨x, hx, hd, rfl, rfl⟩, rfl⟩

theorem mem_paths_document_iff {path : String} :
    path ∈ (g.document config).paths ↔
      ∃ x ∈ g.descriptors, x.isDeclared = true ∧ x.declaredPath = path := by
  constructor
  · intro h
    obtain ⟨⟨space, _⟩, hp, rfl⟩ := List.mem_map.mp h
    obtain ⟨x, hx, hd, rfl, rfl⟩ := mem_placed_document_iff.mp hp
    exact ⟨x, hx, hd, rfl⟩
  · rintro ⟨x, hx, hd, rfl⟩
    exact List.mem_map.mpr ⟨_, mem_placed_document_iff.mpr ⟨x, hx, hd, rfl, rfl⟩, rfl⟩

/-- A declared type stands at its full name exactly when there is no arity to drop. -/
theorem Indexed.declaredPath_eq_fullName_iff (h : g.Indexed) {x : Descriptor}
    (hx : x ∈ g.descriptors) (hn : x.isNested = false) :
    x.declaredPath = x.fullName ↔ '`' ∉ x.definition.name.toList := by
  rw [h.fullName_eq x hx, TypeDef.fullName_eq_pathIn hn]
  exact pathIn_inj.trans TypeDef.displayName_eq_name_iff

end TypeGraph

end Typings
