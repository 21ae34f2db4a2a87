import Typings.Declaration.Layout
import Typings.Proofs.Declaration.Declared

/-! # References between declarations

A file refers to its own types in two ways. The tokens of members resolve to plain types only, and
plain types are always declared. A header writes the full name of the linked base as it stands,
without asking whether that type is plain. Both write full names, while declarations stand under
names without generic arity, so a reference reaches a block only where the two spellings meet.
-/
namespace Typings

/-- The full name that a token refers to. -/
def TypeToken.target? : TypeToken → Option String
  | .declared fullName => some fullName
  | _ => none

/-- The types that a member writes. -/
def Member.tokens : Member → List TypeToken
  | .literal .. => []
  | .field _ _ type => [type]
  | .property _ _ _ type => [type]
  | .constructor params => params.map Parameter.type
  | .method _ _ params returns => params.map Parameter.type ++ [returns]
  | .event _ _ params returns => params.map Parameter.type ++ [returns]

namespace Block

/-- The full names that the members refer to. -/
def mentioned (b : Block) : List String :=
  (b.members.flatMap Member.tokens).filterMap TypeToken.target?

/-- The full name that the header extends. -/
def extended (b : Block) : Option String := if b.typeParams.isEmpty then b.base else none

theorem header_of_extended {b : Block} {r : String} (h : b.extended = some r) (root : String) :
    b.header root = b.kind.keyword ++ " " ++ b.name ++ (" extends " ++ qualify root r) := by
  unfold extended at h
  split at h
  · next hp => rw [header, suffixText, if_pos hp, h]
  · cases h

end Block

/-- The full names that the declarations refer to. -/
def Document.references (doc : Document) : List String :=
  doc.blocks.flatMap fun b => b.mentioned ++ b.extended.toList

namespace TypeGraph

variable {g : TypeGraph} {config : Config} {x : Descriptor} {r : String}

/-! ## The tokens of members -/

/-- A token refers to a plain type, if to any. -/
def Plain (g : TypeGraph) (t : TypeToken) : Prop :=
  ∀ r, t.target? = some r → g.isPlainType r = true

theorem plain_tokenOf (g : TypeGraph) (ty : TypeRef) : g.Plain (g.tokenOf ty) := by
  intro r h
  unfold tokenOf at h
  split at h
  · cases h
  · split at h
    · split at h
      · next hp => cases h; exact hp
      · cases h
    · cases h

theorem plain_parameterToken (g : TypeGraph) (x : Descriptor) (ty : TypeRef) :
    g.Plain (g.parameterToken x ty) := by
  unfold parameterToken
  split
  · split
    · intro r h; cases h
    · exact g.plain_tokenOf _
  · exact g.plain_tokenOf _

/-- A variadic parameter that collects no array falls back to one without a target. -/
theorem plain_parameter (g : TypeGraph) (x : Descriptor) (index : Nat) (p : ParamDef) :
    g.Plain (g.parameter x index p).type := by
  have htype := g.plain_parameterToken x p.type
  unfold parameter
  split
  · dsimp only
    split
    · exact htype
    · intro r h; cases h
  · split
    · exact htype
    · exact htype

theorem plain_of_mem_parameters {params : List ParamDef} {t : TypeToken}
    (h : t ∈ (g.parameters x params).map Parameter.type) : g.Plain t := by
  obtain ⟨_, hp, rfl⟩ := List.mem_map.mp h
  obtain ⟨⟨p, index⟩, -, rfl⟩ := List.mem_map.mp hp
  exact g.plain_parameter x index p

theorem plain_of_mem_signature {params : List ParamDef} {returns : TypeRef} {t : TypeToken}
    (h : t ∈ (g.parameters x params).map Parameter.type ++ [g.tokenOf returns]) : g.Plain t := by
  rcases List.mem_append.mp h with h | h
  · exact plain_of_mem_parameters h
  · cases List.mem_singleton.mp h
    exact g.plain_tokenOf _

theorem plain_of_mem_tokens {m : Member} (hm : m ∈ g.members config x) {t : TypeToken}
    (ht : t ∈ m.tokens) : g.Plain t := by
  unfold members at hm
  split at hm
  · obtain ⟨f, -, hf⟩ := List.mem_filterMap.mp hm
    obtain ⟨_, -, rfl⟩ := Option.map_eq_some_iff.mp hf
    cases ht
  · simp only [List.mem_append, List.mem_map] at hm
    rcases hm with (((⟨f, -, rfl⟩ | ⟨p, -, rfl⟩) | ⟨c, -, rfl⟩) | ⟨m, -, rfl⟩) | ⟨e, -, rfl⟩
    · cases List.mem_singleton.mp ht
      exact g.plain_tokenOf _
    · cases List.mem_singleton.mp ht
      exact g.plain_tokenOf _
    · exact plain_of_mem_parameters ht
    · exact plain_of_mem_signature ht
    · exact plain_of_mem_signature ht

theorem isPlainType_of_mem_mentioned (h : r ∈ (g.block config x).mentioned) :
    g.isPlainType r = true := by
  obtain ⟨t, ht, htarget⟩ := List.mem_filterMap.mp h
  obtain ⟨m, hm, ht⟩ := List.mem_flatMap.mp ht
  exact plain_of_mem_tokens hm ht r htarget

theorem Indexed.exists_of_isPlainType (h : g.Indexed) (hp : g.isPlainType r = true) :
    ∃ y ∈ g.descriptors, y.fullName = r ∧ y.isGeneric = false := by
  obtain ⟨y, hy, hg⟩ := (Option.any_eq_true _ _).mp hp
  obtain ⟨hmem, hn⟩ := h.find?_eq_some_iff.mp hy
  exact ⟨y, hmem, hn, by simpa using hg⟩

theorem Indexed.isPlainType_fullName (h : g.Indexed) {y : Descriptor} (hy : y ∈ g.descriptors) :
    g.isPlainType y.fullName = !y.isGeneric := by
  rw [isPlainType, h.find?_eq_some_iff.mpr ⟨hy, rfl⟩]
  rfl

theorem Indexed.tokenOf_eq_declared (h : g.Indexed) {y : Descriptor} (hy : y ∈ g.descriptors)
    (hg : y.isGeneric = false) (hp : Primitive.ofRef? (.named y.fullName []) = none) :
    g.tokenOf (.named y.fullName []) = .declared y.fullName := by
  rw [tokenOf, hp]
  simp [TypeRef.plainName?, h.isPlainType_fullName hy, hg]

/-! ## Headers -/

/-- A header extends what the graph has as the declared base. -/
theorem extended_block (g : TypeGraph) (config : Config) (x : Descriptor) :
    (g.block config x).extended = g.declaredBase x := by
  have hparams : (g.block config x).typeParams.isEmpty = !x.isGeneric := by
    simp [block, Descriptor.isGeneric, TypeDef.isGeneric, Descriptor.genericArgs]
  rw [Block.extended, hparams]
  cases hg : x.isGeneric with
  | false => rfl
  | true => simp [declaredBase, hg]

/-- A class or an interface that is not generic extends the plain base reference of its definition,
if that names an admitted type of whatever shape. -/
theorem Linked.declaredBase_eq_some_iff (h : g.Linked) (hx : x ∈ g.descriptors) :
    g.declaredBase x = some r ↔
      x.isGeneric = false ∧ x.kind.isEnum = false ∧
        x.definition.base = some (.named r []) ∧ ∃ y ∈ g.descriptors, y.fullName = r := by
  constructor
  · intro hb
    unfold declaredBase at hb
    split at hb
    · cases hb
    · next hplain =>
      obtain ⟨y, hy, rfl⟩ := Option.map_eq_some_iff.mp hb
      obtain ⟨j, hj, hget⟩ := Option.bind_eq_some_iff.mp hy
      obtain ⟨z, hz, hbase⟩ := (h.base_iff hx j).mp hj
      cases hget.symm.trans hz
      obtain ⟨hg, he⟩ : x.isGeneric = false ∧ x.kind.isEnum = false := by simpa using hplain
      exact ⟨hg, he, hbase, y, mem_descriptors_iff.mpr ⟨j, hget⟩, rfl⟩
  · rintro ⟨hg, he, hbase, y, hy, rfl⟩
    obtain ⟨j, hj⟩ := mem_descriptors_iff.mp hy
    have hlink := (h.base_iff hx j).mpr ⟨y, hj, hbase⟩
    simp [declaredBase, hg, he, hlink, hj]

/-! ## Where references lead -/

theorem mem_references_document_iff :
    r ∈ (g.document config).references ↔
      ∃ x ∈ g.descriptors, x.isDeclared = true ∧
        (r ∈ (g.block config x).mentioned ∨ g.declaredBase x = some r) := by
  simp only [Document.references, List.mem_flatMap, mem_blocks_document_iff]
  constructor
  · rintro ⟨_, ⟨x, hx, hd, rfl⟩, h⟩
    exact ⟨x, hx, hd, by simpa [extended_block] using h⟩
  · rintro ⟨x, hx, hd, h⟩
    exact ⟨_, ⟨x, hx, hd, rfl⟩, by simpa [extended_block] using h⟩

theorem Linked.exists_of_mem_references (h : g.Linked)
    (hr : r ∈ (g.document config).references) : ∃ y ∈ g.descriptors, y.fullName = r := by
  obtain ⟨x, hx, -, hm | hb⟩ := mem_references_document_iff.mp hr
  · obtain ⟨y, hy, hn, -⟩ := h.exists_of_isPlainType (isPlainType_of_mem_mentioned hm)
    exact ⟨y, hy, hn⟩
  · exact ((h.declaredBase_eq_some_iff hx).mp hb).2.2.2

theorem Indexed.mem_paths_iff (h : g.Indexed) (hn : ∀ y ∈ g.descriptors, y.isNested = false)
    {y : Descriptor} (hy : y ∈ g.descriptors) :
    y.fullName ∈ (g.document config).paths ↔
      (y.isDeclared = true ∧ '`' ∉ y.definition.name.toList) ∨
        ∃ z ∈ g.descriptors, z.isDeclared = true ∧ '`' ∈ z.definition.name.toList ∧
          z.declaredPath = y.fullName := by
  rw [mem_paths_document_iff]
  constructor
  · rintro ⟨z, hz, hd, hpath⟩
    by_cases hmark : '`' ∈ z.definition.name.toList
    · exact .inr ⟨z, hz, hd, hmark, hpath⟩
    · have hfull := (h.declaredPath_eq_fullName_iff hz (hn z hz)).mpr hmark
      cases h.eq_of_fullName_eq hz hy (hfull.symm.trans hpath)
      exact .inl ⟨hd, hmark⟩
  · rintro (⟨hd, hmark⟩ | ⟨z, hz, hd, -, hpath⟩)
    · exact ⟨y, hy, hd, (h.declaredPath_eq_fullName_iff hy (hn y hy)).mpr hmark⟩
    · exact ⟨z, hz, hd, hpath⟩

/-- A reference is the text of a path when its full name is that path. -/
theorem exists_qualify_iff {doc : Document} {root : String} :
    (∃ path ∈ doc.paths, qualify root r = root ++ "." ++ path) ↔ r ∈ doc.paths := by
  constructor
  · rintro ⟨path, hp, h⟩
    cases (String.append_right_inj _).mp h
    exact hp
  · exact fun h => ⟨r, h, rfl⟩

/-- Every reference names an admitted type. It leads to a block of the same file exactly when that
type is declared and its name has no arity to drop, or when the name of some declared type without
its arity happens to be that full name. What members refer to is plain and declared, so the
references that lead nowhere are those to a plain type whose name has a backtick, and the headers
that extend a generic or a skipped base. -/
theorem reference_reaches_iff (assemblies : List AssemblyDef) (ops : List Operation)
    (config : Config) :
    let g := empty.applyAll (MetadataSet.ofAssemblies assemblies).source ops
    let doc := g.document config
    (∀ r ∈ doc.references, ∃ y ∈ g.descriptors, y.fullName = r ∧
      ((∃ path ∈ doc.paths, qualify config.root r = config.root ++ "." ++ path) ↔
        (y.isDeclared = true ∧ '`' ∉ y.definition.name.toList) ∨
          ∃ z ∈ g.descriptors, z.isDeclared = true ∧ '`' ∈ z.definition.name.toList ∧
            z.declaredPath = r)) ∧
      ∀ b ∈ doc.blocks, ∀ r ∈ b.mentioned,
        ∃ y ∈ g.descriptors, y.fullName = r ∧ y.isGeneric = false ∧ y.isDeclared = true := by
  intro g doc
  have h : g.GrownFrom _ _ := grownFrom_applyAll (MetadataSet.faithful_source assemblies) ops
  have hnested : ∀ y ∈ g.descriptors, y.isNested = false := by
    intro y hy
    obtain ⟨_, ha⟩ := h.admissible hy
    exact ha.not_nested
  refine ⟨?_, ?_⟩
  · intro r hr
    obtain ⟨y, hy, rfl⟩ := h.exists_of_mem_references hr
    exact ⟨y, hy, rfl, exists_qualify_iff.trans (h.mem_paths_iff hnested hy)⟩
  · intro b hb r hr
    obtain ⟨x, -, -, rfl⟩ := mem_blocks_document_iff.mp hb
    obtain ⟨y, hy, hn, hg⟩ := h.exists_of_isPlainType (isPlainType_of_mem_mentioned hr)
    exact ⟨y, hy, hn, hg, Descriptor.isDeclared_of_not_isGeneric (hnested y hy) hg⟩

/-- A class that extends a generic definition refers to it with the arity that its block drops. -/
theorem extends_generic_base_leads_nowhere :
    let base : TypeDef := { space := "N", name := "Base`1", genericArgs := [.param "T"] }
    let derived : TypeDef := { space := "N", name := "Derived", base := some (.named "N.Base`1" []) }
    let set := MetadataSet.ofAssemblies [{ name := "A", types := [base, derived] }]
    let doc := (empty.applyAll set.source [.seed (.assembly "A")]).document {}
    ¬ ∀ r ∈ doc.references, ∃ path ∈ doc.paths, qualify "dotnet" r = "dotnet" ++ "." ++ path := by
  intro base derived set doc hall
  let g := empty.applyAll set.source [.seed (.assembly "A")]
  have h : g.GrownFrom set.source [.assembly "A"] :=
    grownFrom_applyAll (MetadataSet.faithful_source _) [.seed (.assembly "A")]
  have hdefs : ∀ y ∈ g.descriptors, y.definition = base ∨ y.definition = derived := by
    intro y hy
    have hmem : y.definition ∈ [base, derived] :=
      h.definitions_subset (mem_definitions_iff.mpr ⟨y, hy, rfl⟩)
    simpa using hmem
  have hnames : (set.definitions.map TypeDef.fullName).Nodup := by decide +kernel
  have hbase : base ∈ g.definitions :=
    h.mem_of_brings hnames List.mem_cons_self
      ⟨_, ⟨_, rfl, List.mem_cons_self, rfl, rfl⟩, by decide, by decide, by decide⟩
  have hderived : derived ∈ g.definitions :=
    h.mem_of_brings hnames List.mem_cons_self
      ⟨_, ⟨_, rfl, List.mem_cons_of_mem _ List.mem_cons_self, rfl, rfl⟩,
        by decide, by decide, by decide⟩
  obtain ⟨x, hx, hxd⟩ := mem_definitions_iff.mp hderived
  obtain ⟨y, hy, hyd⟩ := mem_definitions_iff.mp hbase
  have hyn : y.fullName = "N.Base`1" := by
    rw [h.fullName_eq y hy, hyd]
    decide
  have hplain : x.isGeneric = false := by
    rw [Descriptor.isGeneric, hxd]
    decide
  have hext : g.declaredBase x = some "N.Base`1" := by
    refine (h.declaredBase_eq_some_iff hx).mpr ⟨hplain, ?_, by rw [hxd], y, hy, hyn⟩
    rw [h.kind_eq x hx, hxd]
    decide
  have hdeclared : x.isDeclared = true := by
    refine Descriptor.isDeclared_of_not_isGeneric ?_ hplain
    rw [Descriptor.isNested, hxd]
    decide
  have hr : "N.Base`1" ∈ doc.references :=
    mem_references_document_iff.mpr ⟨x, hx, hdeclared, .inr hext⟩
  obtain ⟨z, hz, -, hpath⟩ := mem_paths_document_iff.mp (exists_qualify_iff.mp (hall _ hr))
  rw [Descriptor.declaredPath, Descriptor.space, Descriptor.displayName] at hpath
  rcases hdefs z hz with he | he
  · rw [he] at hpath
    revert hpath
    decide +kernel
  · rw [he] at hpath
    revert hpath
    decide +kernel

end TypeGraph

end Typings
