import Mathlib.Data.List.Nodup
import Mathlib.Data.List.Sort
import Typings.Proofs.Graph.Arena

/-! # The declared order

Grouping and sorting look at definitions only, and what they come to does not depend on the order of
admission: full names are distinct, so a sorted group is one list. `byNamespace_eq` computes the
groups of a linked graph from its definitions, and `groupsOf_perm` drops their order. The groups one
behind the other are strictly sorted, so further definitions only come in between.
-/
namespace Typings

/-- The namespaces of the definitions that are not nested, in order. -/
def spacesOf (ds : List TypeDef) : List String :=
  ((ds.filter fun d => !d.isNested).map TypeDef.space).eraseDups.mergeSort fun a b => a ≤ b

/-- The definitions of a namespace that are not nested, in the order of their full names. -/
def definitionsIn (ds : List TypeDef) (space : String) : List TypeDef :=
  ((ds.filter fun d => !d.isNested).filter fun d => d.space = space).mergeSort
    fun a b => a.fullName ≤ b.fullName

/-- Definitions by namespace, in declared order. -/
def groupsOf (ds : List TypeDef) : List (String × List TypeDef) :=
  (spacesOf ds).map fun space => (space, definitionsIn ds space)

theorem pairwise_mergeSort_key {α : Type} (key : α → String) (l : List α) :
    (l.mergeSort fun a b => key a ≤ key b).Pairwise fun a b => key a ≤ key b := by
  refine (List.pairwise_mergeSort ?_ ?_ l).imp of_decide_eq_true
  · intro a b c hab hbc
    exact decide_eq_true (String.le_trans (of_decide_eq_true hab) (of_decide_eq_true hbc))
  · intro a b
    simpa using String.le_total (key a) (key b)

/-- Sorting by a key that tells the elements apart forgets their order. -/
theorem mergeSort_eq_of_perm {α : Type} (key : α → String) {l₁ l₂ : List α} (h : l₁.Perm l₂)
    (hn : (l₁.map key).Nodup) :
    (l₁.mergeSort fun a b => key a ≤ key b) = l₂.mergeSort fun a b => key a ≤ key b := by
  refine List.Perm.eq_of_pairwise ?_ (pairwise_mergeSort_key key l₁)
    (pairwise_mergeSort_key key l₂)
    ((List.mergeSort_perm l₁ _).trans (h.trans (List.mergeSort_perm l₂ _).symm))
  intro a b ha hb hab hba
  rw [List.mem_mergeSort] at ha hb
  exact List.inj_on_of_nodup_map hn ha (h.mem_iff.mpr hb) (String.le_antisymm hab hba)

theorem nodup_eraseDups : ∀ names : List String, names.eraseDups.Nodup
  | [] => by simp
  | name :: rest => by
    rw [List.eraseDups_cons]
    refine List.nodup_cons.mpr ⟨fun h => ?_, nodup_eraseDups _⟩
    have hne := (List.mem_filter.mp (List.mem_eraseDups.mp h)).2
    simp at hne
termination_by names => names.length
decreasing_by exact Nat.lt_succ_of_le (List.length_filter_le _ _)

theorem spacesOf_perm {ds es : List TypeDef} (h : ds.Perm es) : spacesOf ds = spacesOf es := by
  have hspaces := (h.filter fun d => !d.isNested).map TypeDef.space
  refine mergeSort_eq_of_perm id ?_ (by simpa using nodup_eraseDups _)
  refine (List.perm_ext_iff_of_nodup (nodup_eraseDups _) (nodup_eraseDups _)).mpr fun space => ?_
  rw [List.mem_eraseDups, List.mem_eraseDups]
  exact hspaces.mem_iff

theorem definitionsIn_perm {ds es : List TypeDef} (h : ds.Perm es)
    (hn : (ds.map TypeDef.fullName).Nodup) (space : String) :
    definitionsIn ds space = definitionsIn es space := by
  refine mergeSort_eq_of_perm TypeDef.fullName ((h.filter _).filter _) (List.Nodup.sublist ?_ hn)
  exact ((List.filter_sublist).trans List.filter_sublist).map _

/-- The order of admission does not show in the groups. -/
theorem groupsOf_perm {ds es : List TypeDef} (h : ds.Perm es)
    (hn : (ds.map TypeDef.fullName).Nodup) : groupsOf ds = groupsOf es := by
  rw [groupsOf, groupsOf, spacesOf_perm h]
  exact List.map_congr_left fun space _ => by rw [definitionsIn_perm h hn]

/-! ## Definitions in between -/

/-- Definitions that are not nested, in declared order. -/
def inDeclaredOrder (ds : List TypeDef) : List TypeDef := (groupsOf ds).flatMap Prod.snd

/-- The declared order: by namespace, and in a namespace by full name. -/
def Precedes (d e : TypeDef) : Prop :=
  d.space < e.space ∨ d.space = e.space ∧ d.fullName < e.fullName

theorem Precedes.asymm {d e : TypeDef} (h : Precedes d e) : ¬ Precedes e d := by
  rintro (h' | ⟨hs', hn'⟩)
  · rcases h with h | ⟨hs, -⟩
    · exact String.lt_asymm h h'
    · exact String.lt_irrefl _ (hs ▸ h')
  · rcases h with h | ⟨-, hn⟩
    · exact String.lt_irrefl _ (hs' ▸ h)
    · exact String.lt_asymm hn hn'

instance : Std.Antisymm Precedes := ⟨fun _ _ h h' => absurd h' h.asymm⟩

/-- Sorting by a key that tells the elements apart leaves no two of them level. -/
theorem pairwise_lt_mergeSort_key {α : Type} (key : α → String) {l : List α}
    (hn : (l.map key).Nodup) :
    (l.mergeSort fun a b => key a ≤ key b).Pairwise fun a b => key a < key b := by
  have hne : (l.mergeSort fun a b => key a ≤ key b).Pairwise fun a b => key a ≠ key b :=
    List.pairwise_map.mp ((((List.mergeSort_perm l _).map key).nodup_iff).mpr hn)
  refine (pairwise_mergeSort_key key l).imp₂ (fun a b hle hne => ?_) hne
  by_contra hlt
  exact hne (String.le_antisymm hle hlt)

theorem mem_definitionsIn {ds : List TypeDef} {space : String} {d : TypeDef} :
    d ∈ definitionsIn ds space ↔ d ∈ ds ∧ d.isNested = false ∧ d.space = space := by
  simp [definitionsIn, List.mem_mergeSort, and_comm]

theorem mem_spacesOf {ds : List TypeDef} {space : String} :
    space ∈ spacesOf ds ↔ ∃ d ∈ ds, d.isNested = false ∧ d.space = space := by
  simp [spacesOf, List.mem_mergeSort, List.mem_eraseDups, and_assoc]

theorem mem_inDeclaredOrder {ds : List TypeDef} {d : TypeDef} :
    d ∈ inDeclaredOrder ds ↔ d ∈ ds ∧ d.isNested = false := by
  rw [inDeclaredOrder, groupsOf, List.flatMap_map, List.mem_flatMap]
  constructor
  · rintro ⟨space, -, hd⟩
    obtain ⟨hd, hn, -⟩ := mem_definitionsIn.mp hd
    exact ⟨hd, hn⟩
  · intro h
    exact ⟨d.space, mem_spacesOf.mpr ⟨d, h.1, h.2, rfl⟩, mem_definitionsIn.mpr ⟨h.1, h.2, rfl⟩⟩

/-- Each definition has its one place in the declared order. -/
theorem pairwise_inDeclaredOrder {ds : List TypeDef} (hn : (ds.map TypeDef.fullName).Nodup) :
    (inDeclaredOrder ds).Pairwise Precedes := by
  rw [inDeclaredOrder, groupsOf, List.flatMap_map, List.pairwise_flatMap]
  constructor
  · intro space _
    have hsorted : (definitionsIn ds space).Pairwise fun d e => d.fullName < e.fullName := by
      refine pairwise_lt_mergeSort_key TypeDef.fullName (List.Nodup.sublist ?_ hn)
      exact ((List.filter_sublist).trans List.filter_sublist).map _
    refine hsorted.imp_of_mem fun {d e} hd he hlt => .inr ⟨?_, hlt⟩
    rw [(mem_definitionsIn.mp hd).2.2, (mem_definitionsIn.mp he).2.2]
  · have hspaces : (spacesOf ds).Pairwise fun a b => a < b :=
      pairwise_lt_mergeSort_key id (by simpa using nodup_eraseDups _)
    refine hspaces.imp fun {a b} hlt d hd e he => .inl ?_
    rw [(mem_definitionsIn.mp hd).2.2, (mem_definitionsIn.mp he).2.2]
    exact hlt

/-- More definitions come in between, and change nothing about the order of the others. -/
theorem inDeclaredOrder_sublist {ds es : List TypeDef} (h : ds ⊆ es)
    (hds : (ds.map TypeDef.fullName).Nodup) (hes : (es.map TypeDef.fullName).Nodup) :
    (inDeclaredOrder ds).Sublist (inDeclaredOrder es) := by
  have hsorted := pairwise_inDeclaredOrder hds
  have hnodup : (inDeclaredOrder ds).Nodup := hsorted.imp fun hlt he => (he ▸ hlt).asymm (he ▸ hlt)
  have hsubset : inDeclaredOrder ds ⊆ inDeclaredOrder es := by
    intro d hd
    obtain ⟨hd, hn⟩ := mem_inDeclaredOrder.mp hd
    exact mem_inDeclaredOrder.mpr ⟨h hd, hn⟩
  -- The order is strict, so what is contained stands in the same order.
  exact List.sublist_of_subperm_of_pairwise (List.subperm_of_subset hnodup hsubset) hsorted
    (pairwise_inDeclaredOrder hes)

namespace TypeGraph

variable {g : TypeGraph}

/-- The descriptor that a linked graph has for a definition. -/
def descriptorOf (g : TypeGraph) (d : TypeDef) : Descriptor := ⟨d.fullName, .of d, g.baseOf d, d⟩

theorem Linked.eq_descriptorOf (h : g.Linked) {x : Descriptor} (hx : x ∈ g.descriptors) :
    x = g.descriptorOf x.definition := by
  rw [descriptorOf, ← h.fullName_eq x hx, ← h.kind_eq x hx, ← h.base_eq x hx]

theorem Linked.toList_descriptors (h : g.Linked) :
    g.descriptors.toList = g.definitions.map g.descriptorOf := by
  rw [definitions, List.map_map]
  refine (List.map_id _).symm.trans (List.map_congr_left fun x hx => ?_)
  exact h.eq_descriptorOf (Array.mem_toList_iff.mp hx)

theorem Linked.fullNames_eq (h : g.Linked) : g.fullNames = g.definitions.map TypeDef.fullName := by
  rw [fullNames, h.toList_descriptors, List.map_map]
  rfl

theorem Linked.topLevel_eq (h : g.Linked) :
    g.topLevel = (g.definitions.filter fun d => !d.isNested).map g.descriptorOf := by
  rw [topLevel, h.toList_descriptors, List.filter_map]
  rfl

theorem Linked.spaces_eq (h : g.Linked) : g.spaces = spacesOf g.definitions := by
  rw [spaces, h.topLevel_eq, List.map_map]
  rfl

theorem Linked.inSpace_eq (h : g.Linked) (space : String) :
    g.inSpace space = (definitionsIn g.definitions space).map g.descriptorOf := by
  rw [inSpace, h.topLevel_eq, List.filter_map, definitionsIn]
  exact (List.map_mergeSort (f := g.descriptorOf)
    (s := fun a b => decide (a.fullName ≤ b.fullName)) fun _ _ _ _ => rfl).symm

/-- The groups of a linked graph are those of its definitions. -/
theorem Linked.byNamespace_eq (h : g.Linked) :
    g.byNamespace =
      (groupsOf g.definitions).map fun (space, ds) => (space, ds.map g.descriptorOf) := by
  rw [byNamespace, groupsOf, h.spaces_eq, List.map_map]
  exact List.map_congr_left fun space _ => by rw [h.inSpace_eq]; rfl

end TypeGraph

end Typings
