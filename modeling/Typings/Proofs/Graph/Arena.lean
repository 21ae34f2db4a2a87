import Mathlib.Algebra.Group.Nat.Defs
import Typings.Graph.Groups
import Typings.Proofs.Graph.Growth

/-! # The arena and its index

`Indexed` says that the index finds exactly the descriptors that are there, each by its full name,
and that a descriptor repeats what its definition says. `Linked` adds that every base has been
looked up in the present index. Admission keeps the first and linking restores the second, so both
hold after any operations, over any source. A source may answer with a definition of another full
name than it was asked for: the descriptor takes the definition's name.
-/
namespace Typings

theorem TypeRef.plainName?_eq_some_iff {ty : TypeRef} {name : String} :
    ty.plainName? = some name ↔ ty = .named name [] := by
  constructor
  · intro h
    unfold plainName? at h
    split at h
    · cases h; rfl
    · cases h
  · rintro rfl; rfl

namespace TypeGraph

/-- The admitted definitions in the order of admission. -/
def definitions (g : TypeGraph) : List TypeDef := g.descriptors.toList.map Descriptor.definition

@[simp] theorem definitions_empty : empty.definitions = [] := rfl

@[simp] theorem definitions_insert (g : TypeGraph) (d : TypeDef) :
    (g.insert d).definitions = g.definitions ++ [d] := by
  simp [definitions, insert, Descriptor.of]

theorem mem_definitions_insert {g : TypeGraph} {d e : TypeDef} :
    e ∈ (g.insert d).definitions ↔ e ∈ g.definitions ∨ e = d := by
  rw [definitions_insert, List.mem_append, List.mem_singleton]

@[simp] theorem definitions_linkBases (g : TypeGraph) :
    g.linkBases.definitions = g.definitions := by
  simp [definitions, linkBases, Function.comp_def]

theorem getElem?_definitions (g : TypeGraph) (i : Nat) :
    g.definitions[i]? = (g.get? ⟨i⟩).map Descriptor.definition := by
  simp [definitions, get?]

theorem mem_descriptors_iff {g : TypeGraph} {x : Descriptor} :
    x ∈ g.descriptors ↔ ∃ id, g.get? id = some x :=
  Array.mem_iff_getElem?.trans ⟨fun ⟨i, h⟩ => ⟨⟨i⟩, h⟩, fun ⟨⟨i⟩, h⟩ => ⟨i, h⟩⟩

theorem mem_definitions_iff {g : TypeGraph} {d : TypeDef} :
    d ∈ g.definitions ↔ ∃ x ∈ g.descriptors, x.definition = d := by
  simp [definitions]

theorem get?_insert (g : TypeGraph) (d : TypeDef) (id : TypeId) :
    (g.insert d).get? id = if id.index = g.size then some (.of d) else g.get? id :=
  Array.getElem?_push

theorem get?_linkBases (g : TypeGraph) (id : TypeId) :
    g.linkBases.get? id = (g.get? id).map fun x => { x with base := g.baseOf x.definition } := by
  simp [get?, linkBases]

theorem index_lt_size {g : TypeGraph} {id : TypeId} {x : Descriptor} (h : g.get? id = some x) :
    id.index < g.size := by
  obtain ⟨hlt, -⟩ := Array.getElem?_eq_some_iff.mp h
  exact hlt

/-- The index finds exactly the descriptors that are there, and each agrees with its definition. -/
structure Indexed (g : TypeGraph) : Prop where
  lookup_iff : ∀ name id, g.lookup name = some id ↔ ∃ x, g.get? id = some x ∧ x.fullName = name
  fullName_eq : ∀ x ∈ g.descriptors, x.fullName = x.definition.fullName
  kind_eq : ∀ x ∈ g.descriptors, x.kind = .of x.definition

/-- The index is right, and every base is what the index now answers. -/
structure Linked (g : TypeGraph) : Prop extends Indexed g where
  base_eq : ∀ x ∈ g.descriptors, x.base = g.baseOf x.definition

theorem Indexed.empty : TypeGraph.empty.Indexed where
  lookup_iff := by simp [lookup, TypeGraph.empty, get?]
  fullName_eq := by simp [TypeGraph.empty]
  kind_eq := by simp [TypeGraph.empty]

theorem Linked.empty : TypeGraph.empty.Linked where
  toIndexed := .empty
  base_eq := by simp [TypeGraph.empty]

theorem Indexed.contains_iff {g : TypeGraph} (h : g.Indexed) {name : String} :
    g.contains name = true ↔ ∃ x ∈ g.descriptors, x.fullName = name := by
  rw [contains_eq_isSome_lookup, Option.isSome_iff_exists]
  constructor
  · rintro ⟨id, hid⟩
    obtain ⟨x, hx, hn⟩ := (h.lookup_iff name id).mp hid
    exact ⟨x, mem_descriptors_iff.mpr ⟨id, hx⟩, hn⟩
  · rintro ⟨x, hx, hn⟩
    obtain ⟨id, hid⟩ := mem_descriptors_iff.mp hx
    exact ⟨id, (h.lookup_iff name id).mpr ⟨x, hid, hn⟩⟩

theorem Indexed.contains_iff_mem {g : TypeGraph} (h : g.Indexed) {name : String} :
    g.contains name = true ↔ ∃ d ∈ g.definitions, d.fullName = name := by
  rw [h.contains_iff]
  constructor
  · rintro ⟨x, hx, hn⟩
    exact ⟨x.definition, mem_definitions_iff.mpr ⟨x, hx, rfl⟩, h.fullName_eq x hx ▸ hn⟩
  · rintro ⟨d, hd, hn⟩
    obtain ⟨x, hx, rfl⟩ := mem_definitions_iff.mp hd
    exact ⟨x, hx, (h.fullName_eq x hx).trans hn⟩

theorem Indexed.mem_fullNames_iff {g : TypeGraph} (h : g.Indexed) {name : String} :
    name ∈ g.fullNames ↔ g.contains name = true := by
  rw [h.contains_iff, fullNames, List.mem_map]
  simp only [Array.mem_toList_iff]

/-- Two positions of one full name are both the answer of its look-up. -/
theorem Indexed.fullNames_nodup {g : TypeGraph} (h : g.Indexed) : g.fullNames.Nodup := by
  refine List.pairwise_iff_getElem.mpr fun i j hi hj hij heq => ?_
  simp only [fullNames, List.length_map, Array.length_toList] at hi hj
  simp only [fullNames, List.getElem_map, Array.getElem_toList] at heq
  have hi' := (h.lookup_iff _ ⟨i⟩).mpr ⟨_, Array.getElem?_eq_getElem hi, rfl⟩
  have hj' := (h.lookup_iff _ ⟨j⟩).mpr ⟨_, Array.getElem?_eq_getElem hj, heq.symm⟩
  have := TypeId.mk.inj (Option.some.inj (hi'.symm.trans hj'))
  omega

theorem Indexed.find?_eq_some_iff {g : TypeGraph} (h : g.Indexed) {name : String} {x : Descriptor} :
    g.find? name = some x ↔ x ∈ g.descriptors ∧ x.fullName = name := by
  rw [find?, Option.bind_eq_some_iff]
  constructor
  · rintro ⟨id, hl, hx⟩
    obtain ⟨y, hy, hn⟩ := (h.lookup_iff name id).mp hl
    cases hx.symm.trans hy
    exact ⟨mem_descriptors_iff.mpr ⟨id, hx⟩, hn⟩
  · rintro ⟨hx, hn⟩
    obtain ⟨id, hid⟩ := mem_descriptors_iff.mp hx
    exact ⟨id, (h.lookup_iff name id).mpr ⟨x, hid, hn⟩, hid⟩

theorem Indexed.eq_of_fullName_eq {g : TypeGraph} (h : g.Indexed) {x y : Descriptor}
    (hx : x ∈ g.descriptors) (hy : y ∈ g.descriptors) (heq : x.fullName = y.fullName) : x = y := by
  have hfind := h.find?_eq_some_iff.mpr ⟨hx, heq⟩
  exact Option.some.inj (hfind.symm.trans (h.find?_eq_some_iff.mpr ⟨hy, rfl⟩))

theorem Indexed.insert {g : TypeGraph} (h : g.Indexed) {d : TypeDef}
    (hc : g.contains d.fullName = false) : (g.insert d).Indexed where
  lookup_iff name id := by
    have hnew : g.lookup d.fullName = none := by
      rwa [contains_eq_isSome_lookup, Option.isSome_eq_false_iff, Option.isNone_iff_eq_none] at hc
    rw [lookup_insert, get?_insert]
    constructor
    · intro hl
      split at hl
      · next he => cases hl; exact ⟨.of d, by simp, he⟩
      · next he =>
        obtain ⟨x, hx, hn⟩ := (h.lookup_iff name id).mp hl
        have := index_lt_size hx
        exact ⟨x, by rw [if_neg (by omega), hx], hn⟩
    · rintro ⟨x, hx, hn⟩
      split at hx
      · next hi =>
        cases hx
        rw [if_pos (show d.fullName = name from hn), ← hi]
      · have hl := (h.lookup_iff name id).mpr ⟨x, hx, hn⟩
        rw [if_neg, hl]
        rintro rfl
        rw [hnew] at hl; cases hl
  fullName_eq x hx := by
    rcases Array.mem_push.mp hx with hx | rfl
    · exact h.fullName_eq x hx
    · rfl
  kind_eq x hx := by
    rcases Array.mem_push.mp hx with hx | rfl
    · exact h.kind_eq x hx
    · rfl

/-- Linking changes no name, and the look-ups it makes are those of the graph it ends in. -/
theorem Indexed.linkBases {g : TypeGraph} (h : g.Indexed) : g.linkBases.Linked where
  lookup_iff name id := by
    refine (h.lookup_iff name id).trans ?_
    rw [get?_linkBases]
    cases g.get? id <;> simp
  fullName_eq x hx := by
    obtain ⟨y, hy, rfl⟩ := Array.mem_map.mp hx
    exact h.fullName_eq y hy
  kind_eq x hx := by
    obtain ⟨y, hy, rfl⟩ := Array.mem_map.mp hx
    exact h.kind_eq y hy
  base_eq x hx := by
    obtain ⟨y, hy, rfl⟩ := Array.mem_map.mp hx
    rfl

/-- The base of a linked descriptor is the position of the type that a plain base reference names. -/
theorem Linked.base_iff {g : TypeGraph} (h : g.Linked) {x : Descriptor} (hx : x ∈ g.descriptors)
    (j : TypeId) :
    x.base = some j ↔
      ∃ y, g.get? j = some y ∧ x.definition.base = some (.named y.fullName []) := by
  rw [h.base_eq x hx, baseOf, Option.bind_eq_some_iff]
  constructor
  · rintro ⟨name, hb, hl⟩
    obtain ⟨ty, hty, hn⟩ := Option.bind_eq_some_iff.mp hb
    obtain ⟨y, hy, rfl⟩ := (h.lookup_iff name j).mp hl
    exact ⟨y, hy, by rw [hty, TypeRef.plainName?_eq_some_iff.mp hn]⟩
  · rintro ⟨y, hy, hb⟩
    exact ⟨y.fullName, Option.bind_eq_some_iff.mpr ⟨_, hb, rfl⟩,
      (h.lookup_iff _ j).mpr ⟨y, hy, rfl⟩⟩

end TypeGraph

/-! ## What the loop keeps -/

namespace Frontier

/-- The index is right, and what is pending has been admitted. -/
structure Sound (f : Frontier) : Prop where
  indexed : f.graph.Indexed
  pending_mem : ∀ d ∈ f.pending, d ∈ f.graph.definitions

variable {src : Source}

theorem Sound.enter {f : Frontier} (h : f.Sound) {d : TypeDef}
    (hc : f.graph.contains d.fullName = false) : (f.enter d).Sound where
  indexed := h.indexed.insert hc
  pending_mem e he := by
    rw [graph_enter, TypeGraph.definitions_insert]
    rcases List.mem_cons.mp he with rfl | he
    · exact List.mem_append_right _ List.mem_cons_self
    · exact List.mem_append_left _ (h.pending_mem e he)

/-- Taking a definition off the pending ones leaves the rest sound. -/
theorem Sound.tail {g : TypeGraph} {d : TypeDef} {pending : List TypeDef}
    (h : Sound ⟨g, d :: pending⟩) : Sound ⟨g, pending⟩ where
  indexed := h.indexed
  pending_mem e he := h.pending_mem e (List.mem_cons_of_mem _ he)

theorem Sound.expand {f : Frontier} (h : f.Sound) (d : TypeDef) : (expand src f d).Sound :=
  foldl_offer_induction d.offers (fun _ _ _ _ _ hc hf => hf.enter hc) h

theorem Sound.close {f : Frontier} (h : f.Sound) : (f.close src).graph.Indexed :=
  (close_induction (P := Sound) (fun _ d _ hf => hf.tail.expand d) h).indexed

theorem definitions_prefix_expand (f : Frontier) (d : TypeDef) :
    f.graph.definitions <+: (expand src f d).graph.definitions := by
  refine foldl_offer_induction (P := fun f' => f.graph.definitions <+: f'.graph.definitions)
    d.offers (fun f' _ _ e _ _ hf' => hf'.trans ?_) (List.prefix_refl _)
  rw [graph_enter, TypeGraph.definitions_insert]
  exact List.prefix_append _ _

/-- Definitions are only ever appended. -/
theorem definitions_prefix_close (f : Frontier) :
    f.graph.definitions <+: (f.close src).graph.definitions :=
  close_induction (P := fun f' => f.graph.definitions <+: f'.graph.definitions)
    (fun g d pending hf => hf.trans (definitions_prefix_expand ⟨g, pending⟩ d))
    (List.prefix_refl _)

/-- The loop takes admitted definitions only off its pending ones. -/
theorem Sound.expanded_mem {f : Frontier} (h : f.Sound) :
    ∀ d ∈ (f.close src).expanded, d ∈ (f.close src).graph.definitions := by
  induction f using close.induct src with
  | case1 f hp =>
    obtain ⟨g, pending⟩ := f
    cases hp
    rw [close_nil]; simp
  | case2 f d pending hp ih =>
    obtain ⟨g, pending'⟩ := f
    cases hp
    rw [close_cons]
    intro e he
    rcases List.mem_cons.mp he with rfl | he
    · have hmem := h.pending_mem e List.mem_cons_self
      have hkeep : g.definitions <+: (Frontier.expand src ⟨g, pending⟩ e).graph.definitions :=
        definitions_prefix_expand ⟨g, pending⟩ e
      exact (definitions_prefix_close _).subset (hkeep.subset hmem)
    · exact ih (h.tail.expand d) e he

end Frontier

namespace TypeGraph

variable {src : Source} {g : TypeGraph}

theorem Indexed.frontier (h : g.Indexed) : g.frontier.Sound := ⟨h, by simp [TypeGraph.frontier]⟩

theorem Indexed.offerSeed (h : g.Indexed) {s : Seed} {f : Frontier}
    (hs : g.offerSeed src s = .ok f) : f.Sound :=
  offerSeed_induction (fun _ _ _ _ _ hc hf => hf.enter hc) h.frontier hs

theorem Linked.apply (h : g.Linked) (op : Operation) : (g.apply src op).Linked := by
  cases op with
  | clear => exact .empty
  | seed s =>
    rcases g.apply_seed_cases src s with ⟨_, -, he⟩ | ⟨f, hf, he⟩
    · rw [he]; exact h
    · rw [he]; exact (h.toIndexed.offerSeed hf).close.linkBases

theorem Linked.applyAll (h : g.Linked) (ops : List Operation) : (g.applyAll src ops).Linked :=
  List.foldlRecOn ops (TypeGraph.apply src) h fun _ h op _ => h.apply op

/-- Every graph that operations lead to is linked. -/
theorem linked_applyAll (src : Source) (ops : List Operation) :
    (empty.applyAll src ops).Linked :=
  Linked.empty.applyAll ops

/-- Every definition has passed the tests of admission. -/
def Screened (g : TypeGraph) : Prop := ∀ d ∈ g.definitions, ∃ args, d.Admissible args

theorem Screened.insert (h : g.Screened) {d : TypeDef} {args : List TypeRef}
    (ha : d.Admissible args) : (g.insert d).Screened := by
  intro e he
  rcases mem_definitions_insert.mp he with he | rfl
  · exact h e he
  · exact ⟨args, ha⟩

theorem Screened.apply (h : g.Screened) (op : Operation) : (g.apply src op).Screened := by
  cases op with
  | clear => simp [Screened, TypeGraph.apply]
  | seed s =>
    refine apply_seed_induction (fun g d args ha _ hg => hg.insert ha) (fun g hg => ?_) h s
    rwa [Screened, definitions_linkBases]

/-- Operations admit nothing that fails a test, whatever the source answers. -/
theorem screened_applyAll (src : Source) (ops : List Operation) :
    (empty.applyAll src ops).Screened :=
  List.foldlRecOn (motive := Screened) ops (TypeGraph.apply src) (by simp [Screened])
    fun _ h op _ => h.apply op

theorem Screened.isNested_eq_false (h : g.Screened) {x : Descriptor} (hx : x ∈ g.descriptors) :
    x.isNested = false := by
  obtain ⟨_, ha⟩ := h _ (mem_definitions_iff.mpr ⟨x, hx, rfl⟩)
  exact ha.not_nested

/-- The positions that a graph hands out: with its entries, for a full name, as a base. -/
inductive HandsOut (g : TypeGraph) : TypeId → Prop where
  | entry {id x} : (id, x) ∈ g.entries → HandsOut g id
  | lookup {name id} : g.lookup name = some id → HandsOut g id
  | base {x id} : x ∈ g.descriptors → x.base = some id → HandsOut g id

theorem mem_entries_iff {id : TypeId} {x : Descriptor} :
    (id, x) ∈ g.entries ↔ g.get? id = some x := by
  obtain ⟨i⟩ := id
  simp only [entries, get?, List.mem_map, Prod.mk.injEq, TypeId.mk.injEq, Prod.exists,
    List.mem_zipIdx_iff_getElem?, Array.getElem?_toList]
  exact ⟨fun ⟨_, _, h, hi, hx⟩ => hi ▸ hx ▸ h, fun h => ⟨x, i, h, rfl, rfl⟩⟩

theorem Linked.get?_of_handsOut (h : g.Linked) {id : TypeId} (hid : g.HandsOut id) :
    ∃ x, g.get? id = some x := by
  cases hid with
  | entry he => exact ⟨_, mem_entries_iff.mp he⟩
  | lookup hl =>
    obtain ⟨x, hx, -⟩ := (h.lookup_iff _ _).mp hl
    exact ⟨x, hx⟩
  | base hx hb =>
    obtain ⟨y, hy, -⟩ := (h.base_iff hx _).mp hb
    exact ⟨y, hy⟩

theorem mem_topLevel_iff {x : Descriptor} :
    x ∈ g.topLevel ↔ x ∈ g.descriptors ∧ x.isNested = false := by
  rw [topLevel, List.mem_filter, Array.mem_toList_iff, Bool.not_eq_true']

theorem mem_spaces_iff {space : String} :
    space ∈ g.spaces ↔ ∃ x ∈ g.descriptors, x.isNested = false ∧ x.space = space := by
  simp only [spaces, List.mem_mergeSort, List.mem_eraseDups, List.mem_map, mem_topLevel_iff,
    and_assoc]

theorem mem_inSpace_iff {space : String} {x : Descriptor} :
    x ∈ g.inSpace space ↔ x ∈ g.descriptors ∧ x.isNested = false ∧ x.space = space := by
  rw [inSpace, List.mem_mergeSort, List.mem_filter, mem_topLevel_iff, decide_eq_true_iff, and_assoc]

theorem mem_byNamespace_iff {space : String} {types : List Descriptor} :
    (space, types) ∈ g.byNamespace ↔ space ∈ g.spaces ∧ g.inSpace space = types := by
  rw [byNamespace, List.mem_map]
  constructor
  · rintro ⟨_, hs, he⟩
    cases he
    exact ⟨hs, rfl⟩
  · rintro ⟨hs, rfl⟩
    exact ⟨space, hs, rfl⟩

/-- After any operations, failed ones and clearings among them, over any source: the full names are
distinct, the index answers with the position of the descriptor of a name, and a descriptor agrees
with its definition, its base being the position of the type that a plain base reference names.
So every position that the graph hands out has a descriptor, which is what the groups by namespace
and the loop of a further seed rely on; in a graph of less than 2^32 types it fits 32 bits. -/
theorem arena_index_agree (src : Source) (ops : List Operation) :
    let g := empty.applyAll src ops
    g.fullNames.Nodup ∧
      (∀ name id, g.lookup name = some id ↔ ∃ x, g.get? id = some x ∧ x.fullName = name) ∧
      (∀ x ∈ g.descriptors, x.fullName = x.definition.fullName ∧ x.kind = .of x.definition ∧
        ∀ j, x.base = some j ↔
          ∃ y, g.get? j = some y ∧ x.definition.base = some (.named y.fullName [])) ∧
      (∀ id, g.HandsOut id → id.index < g.size ∧ (∃ x, g.get? id = some x) ∧
        (g.size < 2 ^ 32 → (UInt32.ofNat id.index).toNat = id.index)) ∧
      (∀ space types, (space, types) ∈ g.byNamespace → ∀ x ∈ types, ∃ id, (id, x) ∈ g.entries) ∧
      ∀ s growth, g.seed src s = .ok growth → ∀ d ∈ growth.expanded,
        ∃ id x, growth.graph.get? id = some x ∧ x.definition = d := by
  intro g
  have h : g.Linked := linked_applyAll src ops
  refine ⟨h.fullNames_nodup, h.lookup_iff, ?_, ?_, ?_, ?_⟩
  · exact fun x hx => ⟨h.fullName_eq x hx, h.kind_eq x hx, h.base_iff hx⟩
  · intro id hid
    obtain ⟨x, hx⟩ := h.get?_of_handsOut hid
    have hlt := index_lt_size hx
    exact ⟨hlt, ⟨x, hx⟩, fun hsize => UInt32.toNat_ofNat_of_lt' (Nat.lt_trans hlt hsize)⟩
  · intro space types ht x hx
    obtain ⟨-, rfl⟩ := mem_byNamespace_iff.mp ht
    obtain ⟨id, hid⟩ := mem_descriptors_iff.mp (mem_inSpace_iff.mp hx).1
    exact ⟨id, mem_entries_iff.mpr hid⟩
  · intro s growth hs d hd
    unfold seed at hs
    split at hs
    · next f hf =>
      cases hs
      have hmem := (h.toIndexed.offerSeed hf).expanded_mem d hd
      rw [← definitions_linkBases] at hmem
      obtain ⟨x, hx, hxd⟩ := mem_definitions_iff.mp hmem
      obtain ⟨id, hid⟩ := mem_descriptors_iff.mp hx
      exact ⟨id, x, hid, hxd⟩
    · cases hs

end TypeGraph

end Typings
