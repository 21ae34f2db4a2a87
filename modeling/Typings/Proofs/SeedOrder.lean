import Typings.Proofs.Declaration.SameTypes
import Typings.Proofs.Graph.Reachability

/-! # The order of seeds

Which definitions a graph holds is decided by which seeds are live, not by when they came: each
definition has a reason in one graph, and completeness carries that reason over to the other. With
distinct full names a name has one definition, so the two graphs hold the same definitions, and what
is written about them is the same text. Positions and the order of admission do differ.
-/
namespace Typings

namespace TypeGraph

variable {set : MetadataSet} {g g₁ g₂ : TypeGraph} {seeds seeds₁ seeds₂ : List Seed}

/-- By induction on the position in the one graph: what brought a definition in there has brought it
into the other one too. -/
theorem GrownFrom.subset (hnames : (set.definitions.map TypeDef.fullName).Nodup)
    (h₁ : g₁.GrownFrom set.source seeds₁) (h₂ : g₂.GrownFrom set.source seeds₂)
    (hs : seeds₁ ⊆ seeds₂) : g₁.definitions ⊆ g₂.definitions := by
  suffices aux : ∀ (i : Nat) (d : TypeDef), g₁.definitions[i]? = some d → d ∈ g₂.definitions by
    intro d hd
    obtain ⟨i, hi⟩ := List.mem_iff_getElem?.mp hd
    exact aux i d hi
  intro i
  induction i using Nat.strongRecOn with
  | ind i ih =>
    intro d hi
    have hd : d ∈ set.definitions := h₁.definitions_subset (List.mem_of_getElem? hi)
    refine h₂.mem_of_contains hnames hd ?_
    rcases h₁.justified i d hi with ⟨s, hmem, hb⟩ | ⟨j, hj, e, ty, he, hm, hadm⟩
    · exact h₂.seeded s (hs hmem) d hb
    · exact h₂.settled e (ih j hj e he) ty hm d hadm

theorem GrownFrom.sameTypes (hnames : (set.definitions.map TypeDef.fullName).Nodup)
    (h₁ : g₁.GrownFrom set.source seeds₁) (h₂ : g₂.GrownFrom set.source seeds₂)
    (hs : ∀ s, s ∈ seeds₁ ↔ s ∈ seeds₂) : SameTypes g₁ g₂ where
  left := h₁.toLinked
  right := h₂.toLinked
  perm := by
    have hnodup : ∀ {g : TypeGraph}, g.Linked → g.definitions.Nodup := fun h =>
      List.Nodup.of_map _ (h.fullNames_eq ▸ h.fullNames_nodup)
    refine (List.perm_ext_iff_of_nodup (hnodup h₁.toLinked) (hnodup h₂.toLinked)).mpr fun d => ?_
    exact ⟨fun hd => h₁.subset hnames h₂ (fun s => (hs s).mp) hd,
      fun hd => h₂.subset hnames h₁ (fun s => (hs s).mpr) hd⟩

theorem mem_liveSeeds_map_seed {s : Seed} :
    s ∈ liveSeeds (seeds.map Operation.seed) ↔ s ∈ seeds := by
  rw [liveSeeds, foldl_live_map_seed, List.append_nil, List.mem_reverse]

/-- With distinct full names in the manifest, two sequences of the same seeds, in any order and with
any repetitions, lead to the same full names, to the same definition, kind and base name for each,
to the same declaration file under every configuration and to the same listing. -/
theorem seed_order_irrelevant {assemblies : List AssemblyDef} {seeds₁ seeds₂ : List Seed}
    (hnames : ((MetadataSet.ofAssemblies assemblies).definitions.map TypeDef.fullName).Nodup)
    (hseeds : ∀ s, s ∈ seeds₁ ↔ s ∈ seeds₂) :
    let src := (MetadataSet.ofAssemblies assemblies).source
    let g₁ := empty.applyAll src (seeds₁.map .seed)
    let g₂ := empty.applyAll src (seeds₂.map .seed)
    (∀ name, name ∈ g₁.fullNames ↔ name ∈ g₂.fullNames) ∧
      (∀ x₁ ∈ g₁.descriptors, ∀ x₂ ∈ g₂.descriptors, x₁.fullName = x₂.fullName →
        x₁.definition = x₂.definition ∧ x₁.kind = x₂.kind ∧ g₁.baseName x₁ = g₂.baseName x₂) ∧
      (∀ config, g₁.emit config = g₂.emit config) ∧
      g₁.listing = g₂.listing := by
  intro src g₁ g₂
  have hsrc : src.Faithful := MetadataSet.faithful_source assemblies
  have hg₁ : g₁.GrownFrom src _ := grownFrom_applyAll hsrc _
  have hg₂ : g₂.GrownFrom src _ := grownFrom_applyAll hsrc _
  have h : SameTypes g₁ g₂ := hg₁.sameTypes hnames hg₂ fun s =>
    mem_liveSeeds_map_seed.trans ((hseeds s).trans mem_liveSeeds_map_seed.symm)
  refine ⟨fun name => ?_, ?_, fun config => ?_, h.listing_eq⟩
  · rw [h.left.fullNames_eq, h.right.fullNames_eq]
    exact (h.perm.map _).mem_iff
  · intro x₁ hx₁ x₂ hx₂ hn
    have hd : x₁.definition = x₂.definition := by
      have hd₁ := hg₁.definitions_subset (mem_definitions_iff.mpr ⟨x₁, hx₁, rfl⟩)
      have hd₂ := hg₂.definitions_subset (mem_definitions_iff.mpr ⟨x₂, hx₂, rfl⟩)
      refine List.inj_on_of_nodup_map hnames hd₁ hd₂ ?_
      rw [← h.left.fullName_eq x₁ hx₁, hn, h.right.fullName_eq x₂ hx₂]
    refine ⟨hd, ?_, ?_⟩
    · rw [h.left.kind_eq x₁ hx₁, h.right.kind_eq x₂ hx₂, hd]
    · rw [h.left.eq_descriptorOf hx₁, h.right.eq_descriptorOf hx₂, hd]
      exact h.baseName_eq _
  · rw [emit, emit, h.document_eq]

/-- Two seeds whose types refer to each other, in either order and with a repetition. -/
theorem seed_order_irrelevant_cyclic :
    let left : TypeDef := { space := "N", name := "Left", base := some (.named "N.Right" []) }
    let right : TypeDef :=
      { space := "N", name := "Right", methods := [{ name := "M", returns := .named "N.Left" [] }] }
    let assemblies : List AssemblyDef := [{ name := "A", types := [left, right] }]
    let src := (MetadataSet.ofAssemblies assemblies).source
    let seeds₁ : List Seed := [.named "N.Left", .assembly "A"]
    let seeds₂ : List Seed := [.assembly "A", .named "N.Left", .assembly "A"]
    ((MetadataSet.ofAssemblies assemblies).definitions.map TypeDef.fullName).Nodup ∧
      (∀ s, s ∈ seeds₁ ↔ s ∈ seeds₂) ∧
      ∀ config, (empty.applyAll src (seeds₁.map .seed)).emit config =
        (empty.applyAll src (seeds₂.map .seed)).emit config := by
  intro left right assemblies src seeds₁ seeds₂
  have hnames : ((MetadataSet.ofAssemblies assemblies).definitions.map TypeDef.fullName).Nodup := by
    decide +kernel
  have hseeds : ∀ s, s ∈ seeds₁ ↔ s ∈ seeds₂ := by
    intro s
    simp only [seeds₁, seeds₂, List.mem_cons, List.not_mem_nil, or_false]
    tauto
  exact ⟨hnames, hseeds, (seed_order_irrelevant hnames hseeds).2.2.1⟩

end TypeGraph

end Typings
