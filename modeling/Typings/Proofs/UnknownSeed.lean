import Typings.Proofs.SeedChoice

/-! # Where a run stops

A run takes its seeds one by one, up to the first that the set does not know. What the set knows has
nothing to do with the graph, so that seed is found in the list before anything is seeded: the known
ones in front of it lead to a graph, the unknown one changes nothing, and what comes behind it is
never looked at.
-/
namespace Typings

/-- The seed that an error is about. -/
def UnknownSeed.seed : UnknownSeed → Seed
  | .assembly name => .assembly name
  | .type fullName => .named fullName

/-- Some assembly has the name, or some type the full name. A reference may lead to no type, but that
is no error. -/
def Seed.KnownIn (assemblies : List AssemblyDef) : Seed → Prop
  | .assembly name => ∃ a ∈ assemblies, a.name = name
  | .named fullName => ∃ a ∈ assemblies, ∃ d ∈ a.types, d.fullName = fullName
  | .reference _ => True

/-- What is not known has a name of its own for an error to give. -/
theorem Seed.exists_unknown_of_not_knownIn {assemblies : List AssemblyDef} {s : Seed}
    (h : ¬ s.KnownIn assemblies) : ∃ unknown : UnknownSeed, s = unknown.seed := by
  cases s with
  | assembly name => exact ⟨.assembly name, rfl⟩
  | named fullName => exact ⟨.type fullName, rfl⟩
  | reference ty => exact absurd trivial h

namespace TypeGraph

variable {assemblies : List AssemblyDef} {h : TypeGraph}

/-- A seed fails when the set does not know it, in every graph, and the error names it. -/
theorem offerSeed_eq_error_iff (g : TypeGraph) (s : Seed) (unknown : UnknownSeed) :
    g.offerSeed (MetadataSet.ofAssemblies assemblies).source s = .error unknown ↔
      s = unknown.seed ∧ ¬ s.KnownIn assemblies := by
  cases s with
  | assembly name =>
    rw [Seed.KnownIn, ← MetadataSet.exported_isSome_iff]
    simp only [offerSeed, MetadataSet.source]
    cases (MetadataSet.ofAssemblies assemblies).exported name <;>
      cases unknown <;> simp [UnknownSeed.seed]
  | named fullName =>
    rw [Seed.KnownIn, ← MetadataSet.typeDef_isSome_iff]
    simp only [offerSeed, MetadataSet.source]
    cases (MetadataSet.ofAssemblies assemblies).typeDef fullName <;>
      cases unknown <;> simp [UnknownSeed.seed, eq_comm]
  | reference ty => simp [offerSeed, Seed.KnownIn]

theorem offerSeed_isOk_iff (g : TypeGraph) (s : Seed) :
    (g.offerSeed (MetadataSet.ofAssemblies assemblies).source s).isOk = true ↔
      s.KnownIn assemblies := by
  by_cases hs : s.KnownIn assemblies
  · refine iff_of_true ?_ hs
    cases ho : g.offerSeed (MetadataSet.ofAssemblies assemblies).source s with
    | ok f => rfl
    | error unknown => exact absurd hs ((offerSeed_eq_error_iff g s unknown).mp ho).2
  · obtain ⟨unknown, rfl⟩ := Seed.exists_unknown_of_not_knownIn hs
    rw [(offerSeed_eq_error_iff g _ unknown).mpr ⟨rfl, hs⟩]
    exact iff_of_false Bool.false_ne_true hs

/-- Known seeds are followed one by one to their end. -/
theorem seedAll_of_known {seeds : List Seed} (hseeds : ∀ s ∈ seeds, s.KnownIn assemblies)
    (g : TypeGraph) (rest : List Seed) :
    g.seedAll (MetadataSet.ofAssemblies assemblies).source (seeds ++ rest) =
      (g.applyAll (MetadataSet.ofAssemblies assemblies).source (seeds.map .seed)).seedAll
        (MetadataSet.ofAssemblies assemblies).source rest :=
  seedAll_append (fun s hs => (offerSeed_isOk_iff _ s).mpr (hseeds s hs)) g rest

theorem seedAll_of_all_known {seeds : List Seed} (hseeds : ∀ s ∈ seeds, s.KnownIn assemblies)
    (g : TypeGraph) :
    g.seedAll (MetadataSet.ofAssemblies assemblies).source seeds =
      (g.applyAll (MetadataSet.ofAssemblies assemblies).source (seeds.map .seed), none) :=
  seedAll_eq_applyAll (fun s hs => (offerSeed_isOk_iff _ s).mpr (hseeds s hs)) g

/-- An unknown seed ends a run, whatever comes behind it. -/
theorem seedAll_of_unknown {unknown : UnknownSeed} (hs : ¬ unknown.seed.KnownIn assemblies)
    (g : TypeGraph) (rest : List Seed) :
    g.seedAll (MetadataSet.ofAssemblies assemblies).source (unknown.seed :: rest) =
      (g, some unknown) := by
  have hseed : g.seed (MetadataSet.ofAssemblies assemblies).source unknown.seed =
      .error unknown := by
    rw [seed, (offerSeed_eq_error_iff g _ unknown).mpr ⟨rfl, hs⟩]
  rw [seedAll, hseed]

/-- A list of seeds is known throughout, or splits at the first seed that is not. -/
theorem known_or_split (assemblies : List AssemblyDef) (seeds : List Seed) :
    (∀ s ∈ seeds, s.KnownIn assemblies) ∨
      ∃ before unknown after, seeds = before ++ UnknownSeed.seed unknown :: after ∧
        (∀ s ∈ before, s.KnownIn assemblies) ∧ ¬ unknown.seed.KnownIn assemblies := by
  induction seeds with
  | nil => exact .inl (List.forall_mem_nil _)
  | cons s seeds ih =>
    by_cases hs : s.KnownIn assemblies
    · rcases ih with hall | ⟨before, unknown, after, rfl, hbefore, hunknown⟩
      · exact .inl (List.forall_mem_cons.mpr ⟨hs, hall⟩)
      · exact .inr ⟨s :: before, unknown, after, rfl, List.forall_mem_cons.mpr ⟨hs, hbefore⟩,
          hunknown⟩
    · obtain ⟨unknown, rfl⟩ := Seed.exists_unknown_of_not_knownIn hs
      exact .inr ⟨[], unknown, seeds, rfl, List.forall_mem_nil _, hs⟩

theorem seedAll_eq_some_iff (g : TypeGraph) (seeds : List Seed) (unknown : UnknownSeed) :
    g.seedAll (MetadataSet.ofAssemblies assemblies).source seeds = (h, some unknown) ↔
      ∃ before after, seeds = before ++ unknown.seed :: after ∧
        (∀ s ∈ before, s.KnownIn assemblies) ∧ ¬ unknown.seed.KnownIn assemblies ∧
        h = g.applyAll (MetadataSet.ofAssemblies assemblies).source (before.map .seed) := by
  constructor
  · intro hrun
    rcases known_or_split assemblies seeds with
      hall | ⟨before, first, after, rfl, hbefore, hunknown⟩
    · rw [seedAll_of_all_known hall] at hrun; cases hrun
    · rw [seedAll_of_known hbefore, seedAll_of_unknown hunknown] at hrun
      cases hrun
      exact ⟨before, after, rfl, hbefore, hunknown, rfl⟩
  · rintro ⟨before, after, rfl, hbefore, hunknown, rfl⟩
    rw [seedAll_of_known hbefore, seedAll_of_unknown hunknown]

theorem seedAll_eq_none_iff (g : TypeGraph) (seeds : List Seed) :
    (g.seedAll (MetadataSet.ofAssemblies assemblies).source seeds).2 = none ↔
      ∀ s ∈ seeds, s.KnownIn assemblies := by
  constructor
  · intro hrun
    rcases known_or_split assemblies seeds with
      hall | ⟨before, first, after, rfl, hbefore, hunknown⟩
    · exact hall
    · rw [seedAll_of_known hbefore, seedAll_of_unknown hunknown] at hrun; cases hrun
  · intro hall
    rw [seedAll_of_all_known hall]

end TypeGraph

namespace SeedChoice

theorem seeds_of_isEmpty {choice : SeedChoice} {set : MetadataSet}
    (h : choice.assemblies = [] ∧ choice.types = []) :
    choice.seeds set = set.assemblies.map fun a => .assembly a.name := by
  simp [seeds, h.1, h.2]

theorem seeds_of_chosen {choice : SeedChoice} {set : MetadataSet}
    (h : ¬ (choice.assemblies = [] ∧ choice.types = [])) :
    choice.seeds set = choice.assemblies.map .assembly ++ choice.types.map .named := by
  rw [seeds, if_neg]
  simpa using h

theorem forall_chosen_iff {choice : SeedChoice} {P : Seed → Prop} :
    (∀ s ∈ choice.assemblies.map .assembly ++ choice.types.map .named, P s) ↔
      (∀ name ∈ choice.assemblies, P (.assembly name)) ∧
        ∀ fullName ∈ choice.types, P (.named fullName) := by
  rw [List.forall_mem_append, List.forall_mem_map, List.forall_mem_map]

/-- A run succeeds when every chosen assembly is one of the set and every chosen full name belongs to
a type of the set. It fails with the first of the chosen seeds, assemblies before types, for which
this is not so, and then in the graph to which the seeds in front of that one lead from the graph
that the run began with: what fails and what comes behind it has no part in it. -/
theorem run_stops_at_first_unknown (assemblies : List AssemblyDef) (choice : SeedChoice)
    (g : TypeGraph) :
    let set := MetadataSet.ofAssemblies assemblies
    let run := choice.apply set g
    let chosen := choice.assemblies.map Seed.assembly ++ choice.types.map Seed.named
    (run.2 = none ↔ (∀ name ∈ choice.assemblies, ∃ a ∈ assemblies, a.name = name) ∧
        ∀ fullName ∈ choice.types, ∃ a ∈ assemblies, ∃ d ∈ a.types, d.fullName = fullName) ∧
      ∀ h unknown, run = (h, some unknown) ↔
        ∃ before after, chosen = before ++ unknown.seed :: after ∧
          (∀ s ∈ before, s.KnownIn assemblies) ∧ ¬ unknown.seed.KnownIn assemblies ∧
          h = g.applyAll set.source (before.map .seed) := by
  intro set run chosen
  have hrun : run = g.seedAll set.source (choice.seeds set) := rfl
  by_cases hnone : choice.assemblies = [] ∧ choice.types = []
  · -- with nothing chosen every assembly is a seed, by its own name
    have hend : run.2 = none := by
      rw [hrun, seeds_of_isEmpty hnone, TypeGraph.seedAll_eq_none_iff, List.forall_mem_map]
      exact fun a ha => ⟨a, ha, rfl⟩
    have hchosen : chosen = [] := by simp [chosen, hnone.1, hnone.2]
    refine ⟨iff_of_true hend ⟨by simp [hnone.1], by simp [hnone.2]⟩, fun h unknown =>
      iff_of_false (fun hfail => ?_) ?_⟩
    · rw [hfail] at hend; cases hend
    · rintro ⟨before, after, hsplit, -⟩
      rw [hchosen] at hsplit
      exact absurd hsplit.symm (List.append_ne_nil_of_right_ne_nil _ (List.cons_ne_nil _ _))
  · rw [hrun, seeds_of_chosen hnone]
    exact ⟨(TypeGraph.seedAll_eq_none_iff g chosen).trans forall_chosen_iff,
      fun h unknown => TypeGraph.seedAll_eq_some_iff g chosen unknown⟩

end SeedChoice

end Typings
