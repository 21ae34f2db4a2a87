import Typings.Proofs.Declaration.Pieces
import Typings.Proofs.Declaration.SameTypes
import Typings.Proofs.Graph.Extension
import Typings.Proofs.ManifestReferences

/-! # Growth refines what is written

Seeding more only adds definitions, and a line looks at the others for two things: whether a type is
plain, and whether a base is there. Both can turn from no to yes and never back, so a piece stays as
it is or turns from `any` into a new type. The one place that looks at what became of a piece is a
variadic parameter, which keeps an array and replaces anything else; names without marks are no
arrays, so the replacement stays.
-/
namespace Typings

/-- A piece stays what it is, or it was `any` and is a new type now. -/
inductive Piece.Refines (new : String → Prop) : Piece → Piece → Prop where
  | same (p : Piece) : Refines new p p
  | admitted {name : String} (h : new name) : Refines new (.token .any) (.token (.declared name))

/-- A line is refined piece by piece, or it is a header without a base that extends a new type
now. -/
inductive MarkedLine.Refines (new : String → Prop) : MarkedLine → MarkedLine → Prop where
  | pieces {origin : Origin} {depth : Nat} {ps qs : List Piece}
      (h : List.Forall₂ (Piece.Refines new) ps qs) : Refines new ⟨origin, depth, ps⟩ ⟨origin, depth, qs⟩
  | extended {d : TypeDef} {depth : Nat} {front : Piece} {name : String} (h : new name) :
      Refines new ⟨.type d .header, depth, [front, .verbatim " \x7b"]⟩
        ⟨.type d .header, depth,
          [front, .verbatim " extends ", .token (.declared name), .verbatim " \x7b"]⟩

theorem Piece.refines_self (new : String → Prop) (ps : List Piece) :
    List.Forall₂ (Piece.Refines new) ps ps :=
  List.forall₂_same.mpr fun p _ => .same p

theorem MarkedLine.refines_self (new : String → Prop) (ls : List MarkedLine) :
    List.Forall₂ (MarkedLine.Refines new) ls ls :=
  List.forall₂_same.mpr fun l _ => .pieces (Piece.refines_self new l.pieces)

theorem Parameter.refines_listPieces {new : String → Prop} {ps qs : List Parameter}
    (h : List.Forall₂ (fun p q => List.Forall₂ (Piece.Refines new) p.pieces q.pieces) ps qs) :
    List.Forall₂ (Piece.Refines new) (listPieces ps) (listPieces qs) := by
  cases h with
  | nil => exact .nil
  | cons hfirst hrest =>
    refine List.rel_append hfirst (List.rel_flatMap hrest ?_)
    intro p q hpq
    exact .cons (.same _) hpq

/-! ## Names are no arrays -/

theorem TypeRef.IsName.endsAsArray {s : String} (h : IsName s) :
    TypeToken.endsAsArray s = false := by
  cases he : TypeToken.endsAsArray s with
  | false => rfl
  | true =>
    have hsuffix : ['[', ']'] <:+ s.toList := of_decide_eq_true he
    have hmark := h.2 '[' (hsuffix.subset List.mem_cons_self)
    revert hmark
    decide

namespace TypeGraph

/-- Whether a token is an array does not depend on the graph. -/
theorem isArray_tokenOf {ty : TypeRef} (h : ty.WellFormed) (g : TypeGraph) :
    (g.tokenOf ty).isArray = (Primitive.ofRef? ty).any Prod.snd := by
  rw [tokenOf]
  split
  · next he => rw [he]; rfl
  · next he =>
    rw [he]
    split
    · next name hname =>
      have hmem : name ∈ ty.names := by
        rw [TypeRef.plainName?_eq_some_iff.mp hname]
        exact List.mem_cons_self
      split
      · exact (h.names name hmem).endsAsArray
      · rfl
    · rfl

/-! ## Two graphs, one within the other -/

/-- Every definition of the one linked graph is also in the other. -/
structure GrowsInto (g later : TypeGraph) : Prop where
  left : g.Linked
  right : later.Linked
  definitions : g.definitions ⊆ later.definitions

/-- The names in the later graph that the earlier one has not. -/
def Newly (g later : TypeGraph) (name : String) : Prop :=
  name ∉ g.fullNames ∧ name ∈ later.fullNames

theorem isPlainType_eq (g : TypeGraph) (name : String) :
    g.isPlainType name = (g.definitionOf name).any fun d => !d.isGeneric := by
  rw [isPlainType, definitionOf, Option.any_map]
  rfl

theorem Linked.descriptorOf_mem {g : TypeGraph} (h : g.Linked) {d : TypeDef}
    (hd : d ∈ g.definitions) : g.descriptorOf d ∈ g.descriptors := by
  rw [← Array.mem_toList_iff, h.toList_descriptors]
  exact List.mem_map_of_mem hd

theorem mem_fullNames_iff_exists {g : TypeGraph} {name : String} :
    name ∈ g.fullNames ↔ ∃ x ∈ g.descriptors, x.fullName = name := by
  simp only [fullNames, List.mem_map, Array.mem_toList_iff]

theorem Indexed.mem_fullNames_of_definitionOf {g : TypeGraph} (h : g.Indexed) {name : String}
    {d : TypeDef} (hd : g.definitionOf name = some d) : name ∈ g.fullNames := by
  obtain ⟨hmem, rfl⟩ := h.definitionOf_eq_some_iff.mp hd
  obtain ⟨x, hx, rfl⟩ := mem_definitions_iff.mp hmem
  exact mem_fullNames_iff_exists.mpr ⟨x, hx, h.fullName_eq x hx⟩

theorem Indexed.definitionOf_of_mem_fullNames {g : TypeGraph} (h : g.Indexed) {name : String}
    (hn : name ∈ g.fullNames) : ∃ d, g.definitionOf name = some d := by
  obtain ⟨x, hx, rfl⟩ := mem_fullNames_iff_exists.mp hn
  exact ⟨x.definition, h.definitionOf_eq_some_iff.mpr
    ⟨mem_definitions_iff.mpr ⟨x, hx, rfl⟩, (h.fullName_eq x hx).symm⟩⟩

namespace GrowsInto

variable {g later : TypeGraph} {config : Config}

theorem definitionOf (h : GrowsInto g later) {name : String} {d : TypeDef}
    (hd : g.definitionOf name = some d) : later.definitionOf name = some d := by
  obtain ⟨hmem, hn⟩ := h.left.definitionOf_eq_some_iff.mp hd
  exact h.right.definitionOf_eq_some_iff.mpr ⟨h.definitions hmem, hn⟩

/-- A type that is plain in the later graph only is new there. -/
theorem newly_of_isPlainType (h : GrowsInto g later) {name : String}
    (hg : g.isPlainType name = false) (hl : later.isPlainType name = true) :
    g.Newly later name := by
  rw [isPlainType_eq] at hg hl
  obtain ⟨d, hd, -⟩ := (Option.any_eq_true _ _).mp hl
  refine ⟨fun hmem => ?_, h.right.mem_fullNames_of_definitionOf hd⟩
  obtain ⟨e, he⟩ := h.left.definitionOf_of_mem_fullNames hmem
  rw [h.definitionOf he, ← he, hg] at hl
  cases hl

theorem isPlainType (h : GrowsInto g later) {name : String} (hg : g.isPlainType name = true) :
    later.isPlainType name = true := by
  rw [isPlainType_eq] at hg ⊢
  obtain ⟨d, hd, hplain⟩ := (Option.any_eq_true _ _).mp hg
  rw [h.definitionOf hd]
  exact hplain

theorem refines_tokenOf (h : GrowsInto g later) (ty : TypeRef) :
    Piece.Refines (g.Newly later) (.token (g.tokenOf ty)) (.token (later.tokenOf ty)) := by
  rw [tokenOf, tokenOf]
  split
  · exact .same _
  · split
    · next name _ =>
      cases hg : g.isPlainType name with
      | true =>
        rw [if_pos rfl, if_pos (h.isPlainType hg)]
        exact .same _
      | false =>
        rw [if_neg Bool.false_ne_true]
        split
        · next hl => exact .admitted (h.newly_of_isPlainType hg hl)
        · exact .same _
    · exact .same _

variable (d : TypeDef)

theorem refines_parameterToken (h : GrowsInto g later) (ty : TypeRef) :
    Piece.Refines (g.Newly later) (.token (g.parameterToken (g.descriptorOf d) ty))
      (.token (later.parameterToken (later.descriptorOf d) ty)) := by
  cases ty with
  | param name =>
    have hparam : (later.descriptorOf d).hasGenericParam (.param name) =
        (g.descriptorOf d).hasGenericParam (.param name) := rfl
    simp only [parameterToken, hparam]
    split
    · exact .same _
    · exact h.refines_tokenOf _
  | named name args => exact h.refines_tokenOf (.named name args)
  | array element rank => exact h.refines_tokenOf (.array element rank)
  | byRef element => exact h.refines_tokenOf (.byRef element)
  | pointer element => exact h.refines_tokenOf (.pointer element)

theorem isArray_parameterToken (g later : TypeGraph) {ty : TypeRef} (hty : ty.WellFormed) :
    (later.parameterToken (later.descriptorOf d) ty).isArray =
      (g.parameterToken (g.descriptorOf d) ty).isArray := by
  have htoken : (later.tokenOf ty).isArray = (g.tokenOf ty).isArray :=
    (isArray_tokenOf hty later).trans (isArray_tokenOf hty g).symm
  cases ty with
  | param name =>
    have hparam : (later.descriptorOf d).hasGenericParam (.param name) =
        (g.descriptorOf d).hasGenericParam (.param name) := rfl
    simp only [parameterToken, hparam]
    split
    · rfl
    · exact htoken
  | named | array | byRef | pointer => exact htoken

theorem refines_parameter (h : GrowsInto g later) (index : Nat) {p : ParamDef}
    (hp : p.WellFormed) :
    List.Forall₂ (Piece.Refines (g.Newly later))
      (g.parameter (g.descriptorOf d) index p).pieces
      (later.parameter (later.descriptorOf d) index p).pieces := by
  have htoken := h.refines_parameterToken d p.type
  -- A variadic parameter collects an array in both graphs or in neither.
  rw [parameter, parameter, isArray_parameterToken d g later hp]
  split
  · split
    · exact .cons (.same _) (.cons htoken .nil)
    · exact Piece.refines_self _ _
  · split
    · exact .cons (.same _) (.cons htoken .nil)
    · exact .cons (.same _) (.cons htoken .nil)

theorem refines_parameters (h : GrowsInto g later) {params : List ParamDef}
    (hparams : ∀ p ∈ params, p.WellFormed) :
    List.Forall₂ (Piece.Refines (g.Newly later))
      (Parameter.listPieces (g.parameters (g.descriptorOf d) params))
      (Parameter.listPieces (later.parameters (later.descriptorOf d) params)) := by
  refine Parameter.refines_listPieces ?_
  rw [parameters, parameters, List.forall₂_map_left_iff, List.forall₂_map_right_iff,
    List.forall₂_same]
  rintro ⟨p, index⟩ hp
  exact h.refines_parameter d index (hparams p (List.fst_mem_of_mem_zipIdx hp))

/-! ## Members and headers -/

theorem refines_fieldMember (h : GrowsInto g later) (f : FieldDef) :
    List.Forall₂ (Piece.Refines (g.Newly later)) (g.fieldMember (g.descriptorOf d) f).pieces
      (later.fieldMember (later.descriptorOf d) f).pieces :=
  .cons (.same _) (.cons (h.refines_tokenOf f.type) (Piece.refines_self _ _))

theorem refines_propertyMember (h : GrowsInto g later) (config : Config) (p : PropertyDef) :
    List.Forall₂ (Piece.Refines (g.Newly later))
      (g.propertyMember config (g.descriptorOf d) p).pieces
      (later.propertyMember config (later.descriptorOf d) p).pieces :=
  .cons (.same _) (List.rel_append (Piece.refines_self _ _)
    (.cons (.same _) (.cons (h.refines_tokenOf p.type) (Piece.refines_self _ _))))

theorem refines_constructorMember (h : GrowsInto g later) {c : ConstructorDef}
    (hc : c.WellFormed) :
    List.Forall₂ (Piece.Refines (g.Newly later))
      (g.constructorMember (g.descriptorOf d) c).pieces
      (later.constructorMember (later.descriptorOf d) c).pieces :=
  .cons (.same _) (List.rel_append (h.refines_parameters d hc) (Piece.refines_self _ _))

theorem refines_methodMember (h : GrowsInto g later) {m : MethodDef} (hm : m.WellFormed) :
    List.Forall₂ (Piece.Refines (g.Newly later)) (g.methodMember (g.descriptorOf d) m).pieces
      (later.methodMember (later.descriptorOf d) m).pieces :=
  .cons (.same _) (List.rel_append (h.refines_parameters d hm.params)
    (.cons (.same _) (.cons (h.refines_tokenOf m.returns) (Piece.refines_self _ _))))

theorem refines_eventMember (h : GrowsInto g later) {e : EventDef} (he : e.WellFormed) :
    List.Forall₂ (Piece.Refines (g.Newly later)) (g.eventMember (g.descriptorOf d) e).pieces
      (later.eventMember (later.descriptorOf d) e).pieces :=
  .cons (.same _) (List.rel_append (h.refines_parameters d he.signature.params)
    (.cons (.same _) (.cons (h.refines_tokenOf e.signature.returns) (Piece.refines_self _ _))))

theorem refines_memberLines {new : String → Prop} {α : Type} {items : List α} {part : α → Part}
    {m m' : α → Member} (depth : Nat)
    (h : ∀ a ∈ items, List.Forall₂ (Piece.Refines new) (m a).pieces (m' a).pieces) :
    List.Forall₂ (MarkedLine.Refines new)
      ((items.map fun a => (part a, m a)).map (memberLine d depth))
      ((items.map fun a => (part a, m' a)).map (memberLine d depth)) := by
  rw [List.map_map, List.map_map, List.forall₂_map_left_iff, List.forall₂_map_right_iff,
    List.forall₂_same]
  exact fun a ha => .pieces (h a ha)

theorem refines_members (h : GrowsInto g later) (hd : d.WellFormed) (config : Config)
    (depth : Nat) :
    List.Forall₂ (MarkedLine.Refines (g.Newly later))
      ((g.markedMembers config (g.descriptorOf d)).map (memberLine d depth))
      ((later.markedMembers config (later.descriptorOf d)).map (memberLine d depth)) := by
  rw [markedMembers, markedMembers]
  have hkind : (later.descriptorOf d).kind = (g.descriptorOf d).kind := rfl
  rw [hkind]
  split
  · exact MarkedLine.refines_self _ _
  · simp only [List.map_append]
    refine List.rel_append (List.rel_append (List.rel_append (List.rel_append ?_ ?_) ?_) ?_) ?_
    · exact refines_memberLines d depth fun f _ => h.refines_fieldMember d f
    · exact refines_memberLines d depth fun p _ => h.refines_propertyMember d config p
    · refine refines_memberLines d depth fun c hc => h.refines_constructorMember d ?_
      exact hd.constructors c (List.mem_filter.mp hc).1
    · refine refines_memberLines d depth fun m hm => h.refines_methodMember d ?_
      exact hd.methods m (List.mem_filter.mp hm).1
    · refine refines_memberLines d depth fun e he => h.refines_eventMember d ?_
      exact hd.events e (List.mem_filter.mp he).1

theorem fullNames (h : GrowsInto g later) : g.fullNames ⊆ later.fullNames := by
  rw [h.left.fullNames_eq, h.right.fullNames_eq]
  exact List.map_subset _ h.definitions

/-- A base stays, and a header that has none may gain a new type. -/
theorem declaredBase (h : GrowsInto g later) {d : TypeDef} (hd : d ∈ g.definitions) :
    later.declaredBase (later.descriptorOf d) = g.declaredBase (g.descriptorOf d) ∨
      g.declaredBase (g.descriptorOf d) = none ∧
        ∃ name, g.Newly later name ∧ later.declaredBase (later.descriptorOf d) = some name := by
  have hleft := fun r => h.left.declaredBase_eq_some_iff (h.left.descriptorOf_mem hd) (r := r)
  have hright := fun r =>
    h.right.declaredBase_eq_some_iff (h.right.descriptorOf_mem (h.definitions hd)) (r := r)
  simp only [← mem_fullNames_iff_exists] at hleft hright
  cases hg : g.declaredBase (g.descriptorOf d) with
  | some r =>
    obtain ⟨hgeneric, henum, hbase, hr⟩ := (hleft r).mp hg
    exact .inl ((hright r).mpr ⟨hgeneric, henum, hbase, h.fullNames hr⟩)
  | none =>
    cases hl : later.declaredBase (later.descriptorOf d) with
    | none => exact .inl rfl
    | some name =>
      obtain ⟨hgeneric, henum, hbase, hname⟩ := (hright name).mp hl
      refine .inr ⟨rfl, name, ⟨fun hmem => ?_, hname⟩, rfl⟩
      rw [(hleft name).mpr ⟨hgeneric, henum, hbase, hmem⟩] at hg
      cases hg

theorem refines_header (h : GrowsInto g later) (hd : d ∈ g.definitions) (config : Config)
    (depth : Nat) :
    MarkedLine.Refines (g.Newly later)
      ⟨.type d .header, depth, (g.block config (g.descriptorOf d)).headerPieces⟩
      ⟨.type d .header, depth, (later.block config (later.descriptorOf d)).headerPieces⟩ := by
  rw [Block.headerPieces, Block.headerPieces, extended_block, extended_block]
  rcases h.declaredBase hd with he | ⟨hnone, name, hnew, hsome⟩
  · rw [he]
    exact .pieces (Piece.refines_self _ _)
  · rw [hnone, hsome]
    exact .extended hnew

theorem refines_typeLines (h : GrowsInto g later) (hd : d ∈ g.definitions) (hw : d.WellFormed)
    (config : Config) :
    List.Forall₂ (MarkedLine.Refines (g.Newly later)) (g.typeLines config (g.descriptorOf d))
      (later.typeLines config (later.descriptorOf d)) := by
  have hmembers := h.refines_members d hw config (declaredDepth (g.descriptorOf d) + 1)
  exact List.rel_append (MarkedLine.refines_self _ _) (.cons (h.refines_header d hd config _)
    (List.rel_append hmembers (MarkedLine.refines_self _ _)))

end GrowsInto

/-! ## The order of the blocks -/

theorem Linked.declared_eq {g : TypeGraph} (h : g.Linked) :
    g.declared = ((inDeclaredOrder g.definitions).filter fun d =>
      (Descriptor.of d).isDeclared).map g.descriptorOf := by
  rw [declared_eq_filter, listedTypes, h.byNamespace_eq, inDeclaredOrder, List.flatMap_map,
    ← List.map_flatMap (f := g.descriptorOf), List.filter_map]
  rfl

/-- What is declared stays declared, in the same order. -/
theorem GrowsInto.exists_declared_sublist {g later : TypeGraph} (h : GrowsInto g later) :
    ∃ ds : List TypeDef, ds ⊆ g.definitions ∧ g.declared = ds.map g.descriptorOf ∧
      (ds.map later.descriptorOf).Sublist later.declared := by
  refine ⟨_, ?_, h.left.declared_eq, ?_⟩
  · intro d hd
    exact (mem_inDeclaredOrder.mp (List.mem_filter.mp hd).1).1
  · rw [h.right.declared_eq]
    refine List.Sublist.map _ (List.Sublist.filter _ (inDeclaredOrder_sublist h.definitions ?_ ?_))
    · exact h.left.fullNames_eq ▸ h.left.fullNames_nodup
    · exact h.right.fullNames_eq ▸ h.right.fullNames_nodup

theorem growsInto_applyAll (src : Source) {g : TypeGraph} (h : g.Linked) (seeds : List Seed) :
    g.GrowsInto (g.applyAll src (seeds.map .seed)) where
  left := h
  right := h.applyAll _
  definitions := (g.definitions_prefix_applyAll seeds).subset

/-- Further seeding refines a file and rewrites nothing. The blocks of the declared types are all
there again, in the same order and line by line the same, but that a type that was `any` may have
become a reference to a type that came in since, and that a header may have come to extend one. -/
theorem seeding_refines_blocks {text : String} {assemblies : List AssemblyDef}
    (hmanifest : Manifest.ofJson text = .ok assemblies) (ops : List Operation) (seeds : List Seed)
    (config : Config) :
    let src := (MetadataSet.ofAssemblies assemblies).source
    let g := empty.applyAll src ops
    let later := g.applyAll src (seeds.map .seed)
    (∀ h ∈ [g, later],
      h.emit config = (if config.header then banner ++ "\n\n" else "") ++
          String.join ((h.markedLines config).map fun l =>
            (l.line config.root).render config.indent) ∧
        ((h.markedLines config).filter fun l => l.origin.type?.isSome) =
          h.declared.flatMap (h.typeLines config)) ∧
      ∃ kept, kept.Sublist later.declared ∧
        List.Forall₂ (fun x y => y.definition = x.definition ∧
          List.Forall₂ (MarkedLine.Refines (g.Newly later)) (g.typeLines config x)
            (later.typeLines config y)) g.declared kept := by
  intro src g later
  have hg : g.GrownFrom _ _ := grownFrom_applyAll (MetadataSet.faithful_source assemblies) ops
  have h : g.GrowsInto later := growsInto_applyAll src hg.toLinked seeds
  obtain ⟨ds, hds, hdeclared, hkept⟩ := h.exists_declared_sublist
  refine ⟨fun k _ => ⟨k.emit_eq_markedLines config, k.filter_markedLines config⟩, _, hkept, ?_⟩
  rw [hdeclared, List.forall₂_map_left_iff, List.forall₂_map_right_iff, List.forall₂_same]
  intro d hd
  have hw : d.WellFormed :=
    Manifest.wellFormed_of_ofJson hmanifest d (hg.definitions_subset (hds hd))
  exact ⟨rfl, h.refines_typeLines d (hds hd) hw config⟩

/-- A type with a field of another type, which is seeded after it. -/
theorem seeding_refines_blocks_field :
    let text := "\x7b\"assemblies\":[\x7b\"name\":\"A\",\"types\":[" ++
      "\x7b\"namespace\":\"N\",\"name\":\"Part\"\x7d," ++
      "\x7b\"namespace\":\"N\",\"name\":\"Widget\",\"fields\":[" ++
      "\x7b\"name\":\"Part\",\"type\":\"N.Part\"\x7d]\x7d]\x7d]\x7d"
    ∃ assemblies, Manifest.ofJson text = .ok assemblies ∧
      let src := (MetadataSet.ofAssemblies assemblies).source
      let g := empty.applyAll src [.seed (.named "N.Widget")]
      let later := g.applyAll src [.seed (.named "N.Part")]
      ∃ kept, kept.Sublist later.declared ∧
        List.Forall₂ (fun x y => y.definition = x.definition ∧
          List.Forall₂ (MarkedLine.Refines (g.Newly later)) (g.typeLines {} x)
            (later.typeLines {} y)) g.declared kept := by
  intro text
  have hok : (Manifest.ofJson text).isOk = true := by decide +kernel
  cases hmanifest : Manifest.ofJson text with
  | error fault => rw [hmanifest] at hok; cases hok
  | ok assemblies =>
    exact ⟨assemblies, rfl, (seeding_refines_blocks hmanifest [.seed (.named "N.Widget")]
      [.named "N.Part"] {}).2⟩

end TypeGraph

end Typings
