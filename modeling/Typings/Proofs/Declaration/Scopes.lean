import Mathlib.Data.List.Infix
import Typings.Proofs.Declaration.Nesting
import Typings.Proofs.Declaration.References

/-! # What the first segment of a reference denotes

A reference starts at the root namespace, so that no type on the way can be taken for a namespace of
its path. Its first segment is still a name, and names are looked up from the inside out: a declared
namespace that is called like the root comes first wherever it is in sight. So the segment denotes
the root unless some namespace around the block, or the root namespace itself, has a child of that
name.
-/
namespace Typings

/-- The segments of a dotted name. -/
def segments (s : String) : List String := (s.toList.splitOn '.').map String.ofList

def firstSegment (s : String) : String := (segments s).headD ""

/-- The path of a namespace from the root; the global one is the root itself. -/
def spacePath (space : String) : List String := if space = "" then [] else segments space

/-- The namespaces around a block, by their paths: the innermost first and the root last. -/
def scopes (space : String) : List (List String) := (spacePath space).inits.reverse

/-- What a name denotes. -/
inductive Binding where
  | space (path : List String)
  | root
  | unbound
  deriving DecidableEq, Repr

namespace Document

/-- A path of segments is a namespace when a declared one has it, or goes on from it. -/
def hasSpace (doc : Document) (path : List String) : Bool :=
  !path.isEmpty && doc.any fun s => path.isPrefixOf (spacePath s.name)

/-- What a name denotes in the blocks of a namespace: the child of that name in the innermost scope
that has one, and otherwise the root, if that is its name. -/
def binding (doc : Document) (root space name : String) : Binding :=
  match (scopes space).find? fun scope => doc.hasSpace (scope ++ [name]) with
  | some scope => .space (scope ++ [name])
  | none => if name = root then .root else .unbound

end Document

theorem segments_qualify {root : String} (h : '.' ∉ root.toList) (fullName : String) :
    segments (qualify root fullName) = root :: segments fullName := by
  have hdots : ∀ c ∈ root.toList, (c == '.') = false := by
    intro c hc
    exact beq_false_of_ne fun he => h (he ▸ hc)
  have hsplit : (root.toList ++ '.' :: fullName.toList).splitOn '.' =
      root.toList :: fullName.toList.splitOn '.' :=
    List.splitOnP_append_cons_of_forall_mem hdots '.' rfl _
  rw [segments, segments, qualify, String.append_assoc, String.toList_append,
    String.toList_append]
  change ((root.toList ++ '.' :: fullName.toList).splitOn '.').map String.ofList = _
  rw [hsplit, List.map_cons, String.ofList_toList]

/-- Where the root is a single segment, it is the first one of every reference. -/
theorem firstSegment_qualify {root : String} (h : '.' ∉ root.toList) (fullName : String) :
    firstSegment (qualify root fullName) = root := by
  rw [firstSegment, segments_qualify h]
  rfl

theorem mem_scopes_iff {space : String} {scope : List String} :
    scope ∈ scopes space ↔ scope <+: spacePath space := by
  rw [scopes, List.mem_reverse, List.mem_inits]

namespace Document

variable {doc : Document} {root space : String}

theorem hasSpace_append_iff {scope : List String} {name : String} :
    doc.hasSpace (scope ++ [name]) = true ↔ ∃ s ∈ doc, scope ++ [name] <+: spacePath s.name := by
  simp [hasSpace]

/-- The root is denoted where no scope has a child of its name. -/
theorem binding_eq_root_iff :
    doc.binding root space root = .root ↔
      ∀ scope, scope <+: spacePath space → ∀ s ∈ doc, ¬ scope ++ [root] <+: spacePath s.name := by
  have hnone : ((scopes space).find? fun scope => doc.hasSpace (scope ++ [root])) = none ↔
      ∀ scope, scope <+: spacePath space → ∀ s ∈ doc, ¬ scope ++ [root] <+: spacePath s.name := by
    rw [List.find?_eq_none]
    simp only [mem_scopes_iff, hasSpace_append_iff, not_exists, not_and]
  rw [← hnone, binding]
  cases (scopes space).find? fun scope => doc.hasSpace (scope ++ [root]) with
  | none => simp
  | some scope => simp

end Document

namespace TypeGraph

variable {g : TypeGraph} {config : Config}

/-- The namespaces of a document are those of the declared types. -/
theorem exists_mem_document_iff {space : String} :
    (∃ s ∈ g.document config, s.name = space) ↔
      ∃ y ∈ g.descriptors, y.isDeclared = true ∧ y.space = space := by
  constructor
  · rintro ⟨s, hs, rfl⟩
    obtain ⟨b, hb⟩ := List.exists_mem_of_ne_nil _ (types_ne_nil_of_mem_document hs)
    have hplaced : (s.name, b) ∈ (g.document config).placed :=
      List.mem_flatMap.mpr ⟨s, hs, List.mem_map_of_mem hb⟩
    obtain ⟨y, hy, hd, hspace, -⟩ := mem_placed_document_iff.mp hplaced
    exact ⟨y, hy, hd, hspace⟩
  · rintro ⟨y, hy, hd, rfl⟩
    obtain ⟨types, ht, -⟩ := mem_declaredTypes_iff.mpr ⟨hy, hd, rfl⟩
    exact ⟨_, List.mem_map_of_mem ht, rfl⟩

/-- Every reference starts with a segment that is called like the root. It denotes the root exactly
when no declared type has a namespace whose path starts with a scope of the block and goes on with
that name; so it never does where the name of the root is a segment of the namespace around the
block, and always where it is a segment of no declared namespace. -/
theorem reference_denotes_root_iff (g : TypeGraph) (config : Config)
    (hroot : '.' ∉ config.root.toList) :
    let doc := g.document config
    ∀ space b, (space, b) ∈ doc.placed → ∀ r ∈ b.mentioned ++ b.extended.toList,
      let name := firstSegment (qualify config.root r)
      name = config.root ∧
        (doc.binding config.root space name = .root ↔
          ∀ y ∈ g.descriptors, y.isDeclared = true → ∀ scope, scope <+: spacePath space →
            ¬ scope ++ [config.root] <+: spacePath y.space) ∧
        (config.root ∈ spacePath space → doc.binding config.root space name ≠ .root) ∧
        ((∀ y ∈ g.descriptors, y.isDeclared = true → config.root ∉ spacePath y.space) →
          doc.binding config.root space name = .root) := by
  intro doc space b hb r _ name
  have hname : name = config.root := firstSegment_qualify hroot r
  have hiff : doc.binding config.root space name = .root ↔
      ∀ y ∈ g.descriptors, y.isDeclared = true → ∀ scope, scope <+: spacePath space →
        ¬ scope ++ [config.root] <+: spacePath y.space := by
    rw [hname, Document.binding_eq_root_iff]
    constructor
    · intro h y hy hd scope hscope
      obtain ⟨s, hs, he⟩ := exists_mem_document_iff.mpr ⟨y, hy, hd, rfl⟩
      exact he ▸ h scope hscope s hs
    · intro h scope hscope s hs
      obtain ⟨y, hy, hd, he⟩ := exists_mem_document_iff.mp ⟨s, hs, rfl⟩
      exact he ▸ h y hy hd scope hscope
  refine ⟨hname, hiff, fun hmem hbinding => ?_, fun h => hiff.mpr fun y hy hd scope _ hpath => ?_⟩
  · -- The namespace around the block goes on itself from the scope in front of the root's name.
    obtain ⟨x, hx, hd, rfl, -⟩ := mem_placed_document_iff.mp hb
    obtain ⟨outer, inner, hpath⟩ := List.append_of_mem hmem
    refine hiff.mp hbinding x hx hd outer ⟨_, hpath.symm⟩ ⟨inner, ?_⟩
    rw [hpath, List.append_assoc, List.singleton_append]
  · exact h y hy hd (hpath.subset (List.mem_append_right _ List.mem_cons_self))

/-- A type that is called like the first segment of its namespace does not come in the way. -/
theorem reference_denotes_root_past_type :
    let widget : TypeDef := { space := "Acme", name := "Widget" }
    let acme : TypeDef := { space := "Acme.Core", name := "Acme"
                            methods := [{ name := "Get", returns := .named "Acme.Widget" [] }] }
    let set := MetadataSet.ofAssemblies [{ name := "A", types := [widget, acme] }]
    let doc := (empty.applyAll set.source [.seed (.assembly "A")]).document {}
    '.' ∉ "dotnet".toList ∧
      ∀ space b, (space, b) ∈ doc.placed → ∀ r ∈ b.mentioned ++ b.extended.toList,
        doc.binding "dotnet" space (firstSegment (qualify "dotnet" r)) = .root := by
  intro widget acme set doc
  let g := empty.applyAll set.source [.seed (.assembly "A")]
  have h : g.GrownFrom set.source [.assembly "A"] :=
    grownFrom_applyAll (MetadataSet.faithful_source _) [.seed (.assembly "A")]
  have hroot : '.' ∉ "dotnet".toList := by decide
  have hspaces : ∀ y ∈ g.descriptors, y.isDeclared = true → "dotnet" ∉ spacePath y.space := by
    intro y hy _
    have hmem : y.definition ∈ [widget, acme] :=
      h.definitions_subset (mem_definitions_iff.mpr ⟨y, hy, rfl⟩)
    rw [List.mem_pair] at hmem
    rw [Descriptor.space]
    rcases hmem with he | he
    · rw [he]; decide +kernel
    · rw [he]; decide +kernel
  refine ⟨hroot, fun space b hb r hr => ?_⟩
  exact (reference_denotes_root_iff g {} hroot space b hb r hr).2.2.2 hspaces

/-! ## A namespace with the name of the root -/

theorem mem_mentioned_of_field {x : Descriptor} {f : FieldDef} {r : String}
    (henum : x.kind.isEnum = false) (hf : f ∈ x.declaredFields config)
    (ht : g.tokenOf f.type = .declared r) : r ∈ (g.block config x).mentioned := by
  have hmember : g.fieldMember x f ∈ g.members config x := by
    rw [members, henum, if_neg Bool.false_ne_true]
    simp only [List.mem_append, List.mem_map]
    exact .inl (.inl (.inl (.inl ⟨f, hf, rfl⟩)))
  have htoken : TypeToken.declared r ∈ (g.fieldMember x f).tokens := by
    rw [fieldMember, ht]
    exact List.mem_singleton_self _
  exact List.mem_filterMap.mpr ⟨_, List.mem_flatMap.mpr ⟨_, hmember, htoken⟩, rfl⟩

/-- In a namespace that is called like the root, a reference is taken for a path from there. -/
theorem inner_namespace_captures_reference :
    let target : TypeDef := { space := "dotnet", name := "A" }
    let user : TypeDef := { space := "dotnet", name := "B"
                            fields := [{ name := "Slot", type := .named "dotnet.A" [] }] }
    let set := MetadataSet.ofAssemblies [{ name := "A", types := [target, user] }]
    let doc := (empty.applyAll set.source [.seed (.assembly "A")]).document {}
    ¬ ∀ space b, (space, b) ∈ doc.placed → ∀ r ∈ b.mentioned ++ b.extended.toList,
      doc.binding "dotnet" space (firstSegment (qualify "dotnet" r)) = .root := by
  intro target user set doc hall
  let g := empty.applyAll set.source [.seed (.assembly "A")]
  have h : g.GrownFrom set.source [.assembly "A"] :=
    grownFrom_applyAll (MetadataSet.faithful_source _) [.seed (.assembly "A")]
  have hnames : (set.definitions.map TypeDef.fullName).Nodup := by decide +kernel
  have htarget : target ∈ g.definitions :=
    h.mem_of_brings hnames List.mem_cons_self
      ⟨_, ⟨_, rfl, List.mem_cons_self, rfl, rfl⟩, by decide, by decide, by decide⟩
  have huser : user ∈ g.definitions :=
    h.mem_of_brings hnames List.mem_cons_self
      ⟨_, ⟨_, rfl, List.mem_cons_of_mem _ List.mem_cons_self, rfl, rfl⟩,
        by decide, by decide, by decide⟩
  obtain ⟨y, hy, hyd⟩ := mem_definitions_iff.mp htarget
  obtain ⟨x, hx, hxd⟩ := mem_definitions_iff.mp huser
  have hyn : y.fullName = "dotnet.A" := by
    rw [h.fullName_eq y hy, hyd]
    decide
  have htoken : g.tokenOf (.named "dotnet.A" []) = .declared "dotnet.A" := by
    rw [← hyn]
    refine h.tokenOf_eq_declared hy ?_ ?_
    · rw [Descriptor.isGeneric, hyd]
      decide
    · rw [hyn]
      decide +kernel
  have henum : x.kind.isEnum = false := by
    rw [h.kind_eq x hx, hxd]
    decide
  have hfield : { name := "Slot", type := .named "dotnet.A" [] } ∈ x.declaredFields {} := by
    rw [Descriptor.declaredFields, hxd]
    exact List.mem_filter.mpr ⟨List.mem_cons_self, rfl⟩
  have hmentioned : "dotnet.A" ∈ (g.block {} x).mentioned :=
    mem_mentioned_of_field henum hfield htoken
  have hspace : x.space = "dotnet" := by rw [Descriptor.space, hxd]
  have hdeclared : x.isDeclared = true := by
    refine Descriptor.isDeclared_of_not_isGeneric ?_ ?_
    · rw [Descriptor.isNested, hxd]
      decide
    · rw [Descriptor.isGeneric, hxd]
      decide
  have hplaced : ("dotnet", g.block {} x) ∈ doc.placed :=
    mem_placed_document_iff.mpr ⟨x, hx, hdeclared, hspace, rfl⟩
  have hbinding := hall _ _ hplaced "dotnet.A" (List.mem_append_left _ hmentioned)
  rw [firstSegment_qualify (by decide), Document.binding_eq_root_iff] at hbinding
  obtain ⟨s, hs, he⟩ := exists_mem_document_iff.mpr ⟨x, hx, hdeclared, hspace⟩
  refine hbinding [] List.nil_prefix s hs ?_
  rw [he]
  decide +kernel

end TypeGraph

end Typings
