import Mathlib.Data.List.Induction
import Typings.Proofs.Graph.Extension

/-! # A run without seeds

With nothing chosen, a run seeds every assembly of the manifest, by its name. No such seed is
unknown, and each brings in what its assembly exports; but a name leads to the first assembly that
bears it, so the later ones of a name are seeds that are live already and change nothing.
-/
namespace Typings

namespace TypeGraph

variable {src : Source} {g : TypeGraph}

theorem seed_isOk (g : TypeGraph) (s : Seed) :
    (g.seed src s).isOk = (empty.offerSeed src s).isOk := by
  rw [offerSeed_isOk empty g, seed]
  cases g.offerSeed src s <;> rfl

/-- A run comes to what stands behind some known seeds with the graph that these lead to. -/
theorem seedAll_append {seeds : List Seed}
    (h : ∀ s ∈ seeds, (empty.offerSeed src s).isOk = true) (g : TypeGraph) (rest : List Seed) :
    g.seedAll src (seeds ++ rest) = (g.applyAll src (seeds.map .seed)).seedAll src rest := by
  induction seeds generalizing g with
  | nil => rfl
  | cons s seeds ih =>
    have hok := h s List.mem_cons_self
    rw [← g.seed_isOk] at hok
    cases hs : g.seed src s with
    | error unknown => rw [hs] at hok; cases hok
    | ok growth =>
      have hstep : g.applyAll src ((s :: seeds).map .seed) =
          (g.apply src (.seed s)).applyAll src (seeds.map .seed) := rfl
      rw [hstep, ← graph_seed_eq_apply hs, List.cons_append, seedAll, hs]
      exact ih (fun t ht => h t (List.mem_cons_of_mem _ ht)) _

/-- Seeds that are all known lead to the graph that they lead to one by one. -/
theorem seedAll_eq_applyAll {seeds : List Seed}
    (h : ∀ s ∈ seeds, (empty.offerSeed src s).isOk = true) (g : TypeGraph) :
    g.seedAll src seeds = (g.applyAll src (seeds.map .seed), none) := by
  have happend := seedAll_append h g []
  rwa [List.append_nil] at happend

/-- A live seed changes nothing, whether it succeeds or fails. -/
theorem GrownFrom.apply_of_mem {live : List Seed} (hg : g.GrownFrom src live) {s : Seed}
    (hs : s ∈ live) : g.apply src (.seed s) = g := by
  cases hseed : g.seed src s with
  | error unknown => rw [TypeGraph.apply, hseed]
  | ok growth =>
    obtain ⟨f, hf, -⟩ := seed_ok_iff.mp hseed
    rw [TypeGraph.apply, hg.seed_of_mem hs (by rw [hf]; rfl)]

theorem applyAll_concat (g : TypeGraph) (seeds : List Seed) (s : Seed) :
    g.applyAll src ((seeds ++ [s]).map .seed) =
      (g.applyAll src (seeds.map .seed)).apply src (.seed s) := by
  rw [applyAll, applyAll, List.map_append, List.foldl_append]
  rfl

/-- Of seeds that are repeated, the first ones decide. -/
theorem applyAll_eraseDups (hsrc : src.Faithful) (seeds : List Seed) :
    empty.applyAll src (seeds.map .seed) = empty.applyAll src (seeds.eraseDups.map .seed) := by
  induction seeds using List.reverseRecOn with
  | nil => rfl
  | append_singleton seeds s ih =>
    rw [List.eraseDups_append, applyAll_concat]
    by_cases hs : s ∈ seeds
    · have hgrown := GrownFrom.empty.applyAll_seeds hsrc seeds
      have hlive : s ∈ seeds.reverse ++ [] := by simpa using hs
      rw [hgrown.apply_of_mem hlive, ih]
      simp [List.removeAll, hs]
    · have hlast : ([s].removeAll seeds).eraseDups = [s] := by
        simp [List.removeAll, List.eraseDups_cons, hs]
      rw [hlast, applyAll_concat, ih]

end TypeGraph

namespace MetadataSet

theorem assembly?_isSome {set : MetadataSet} {a : AssemblyDef} (h : a ∈ set.assemblies) :
    (set.assembly? a.name).isSome = true :=
  List.find?_isSome.mpr ⟨a, h, by simp⟩

/-- A name leads to the first assembly that bears it. -/
theorem assembly?_eq_some_of_first {assemblies : List AssemblyDef} {i : Nat} {a : AssemblyDef}
    (ha : assemblies[i]? = some a)
    (hfirst : ∀ j < i, ∀ b, assemblies[j]? = some b → b.name ≠ a.name) :
    (ofAssemblies assemblies).assembly? a.name = some a := by
  obtain ⟨hi, hai⟩ := List.getElem?_eq_some_iff.mp ha
  refine List.find?_eq_some_iff_getElem.mpr ⟨by simp, i, hi, hai, fun j hj => ?_⟩
  have hne := hfirst j hj _ (List.getElem?_eq_getElem (Nat.lt_trans hj hi))
  simp [ofAssemblies, hne]

end MetadataSet

namespace SeedChoice

theorem seeds_default (set : MetadataSet) :
    ({} : SeedChoice).seeds set = set.assemblies.map fun a => .assembly a.name := rfl

/-- Every assembly is known by its name, so the run comes to an end. -/
theorem apply_default (set : MetadataSet) (g : TypeGraph) :
    ({} : SeedChoice).apply set g =
      (g.applyAll set.source ((({} : SeedChoice).seeds set).map .seed), none) := by
  refine TypeGraph.seedAll_eq_applyAll (fun s hs => ?_) g
  rw [seeds_default] at hs
  obtain ⟨a, ha, rfl⟩ := List.mem_map.mp hs
  obtain ⟨b, hb⟩ := Option.isSome_iff_exists.mp (MetadataSet.assembly?_isSome ha)
  simp only [TypeGraph.offerSeed, MetadataSet.source, MetadataSet.exported, hb]
  rfl

theorem grownFrom_apply_default {set : MetadataSet} (hsrc : set.source.Faithful) :
    (({} : SeedChoice).apply set .empty).1.GrownFrom set.source
      (({} : SeedChoice).seeds set).reverse := by
  have h := TypeGraph.GrownFrom.empty.applyAll_seeds hsrc (({} : SeedChoice).seeds set)
  rw [List.append_nil] at h
  rw [apply_default]
  exact h

/-- A run for which nothing is chosen never fails. It has in its graph every public definition of an
assembly that can be admitted, if no assembly before that one has its name. An assembly whose name
another one has before it adds nothing: the run is that of the distinct names, each seeded once. -/
theorem run_without_seeds (assemblies : List AssemblyDef) :
    let set := MetadataSet.ofAssemblies assemblies
    let run := ({} : SeedChoice).apply set .empty
    run.2 = none ∧
      (∀ (i : Nat) (a : AssemblyDef), assemblies[i]? = some a →
        (∀ j < i, ∀ b, assemblies[j]? = some b → b.name ≠ a.name) →
        ∀ d ∈ a.types, d.isPublic = true → d.isNested = false → d.fullName ≠ rootType →
          (∀ arg ∈ d.genericArgs, arg.isClosed = false) → d.fullName ∈ run.1.fullNames) ∧
      run.1 = TypeGraph.empty.applyAll set.source
        ((assemblies.map fun a => Seed.assembly a.name).eraseDups.map .seed) := by
  intro set run
  have hsrc : set.source.Faithful := MetadataSet.faithful_source assemblies
  have hrun : run = (_, none) := apply_default set .empty
  refine ⟨by rw [hrun], ?_, ?_⟩
  · intro i a ha hfirst d hd hpublic hnested hroot hclosed
    have hg := grownFrom_apply_default hsrc
    have hlive : Seed.assembly a.name ∈ (({} : SeedChoice).seeds set).reverse := by
      rw [List.mem_reverse, seeds_default]
      exact List.mem_map.mpr ⟨a, List.mem_of_getElem? ha, rfl⟩
    have hbrings : (Seed.assembly a.name).Brings set.source d := by
      have hexported : set.exported a.name = some ⟨a.types.filter fun d =>
          d.isPublic && !d.isNested, a.loadFailures⟩ := by
        rw [MetadataSet.exported, MetadataSet.assembly?_eq_some_of_first ha hfirst]
        rfl
      refine ⟨d.genericArgs, ⟨_, hexported, ?_, hpublic, rfl⟩, hroot, hnested, ?_⟩
      · exact List.mem_filter.mpr ⟨hd, by rw [hpublic, hnested]; rfl⟩
      · intro arg harg
        exact hclosed arg (by simpa using harg)
    exact hg.mem_fullNames_iff.mpr (hg.seeded _ hlive d hbrings)
  · rw [hrun, seeds_default]
    exact TypeGraph.applyAll_eraseDups hsrc _

/-- The second of two assemblies of one name is left out. -/
theorem second_of_a_name_left_out :
    let first : AssemblyDef := { name := "A", types := [{ space := "N", name := "X" }] }
    let second : AssemblyDef := { name := "A", types := [{ space := "N", name := "Y" }] }
    let assemblies := [first, second]
    let run := ({} : SeedChoice).apply (MetadataSet.ofAssemblies assemblies) .empty
    ¬ ∀ a ∈ assemblies, ∀ d ∈ a.types, d.isPublic = true → d.isNested = false →
      d.fullName ≠ rootType → (∀ arg ∈ d.genericArgs, arg.isClosed = false) →
      d.fullName ∈ run.1.fullNames := by
  intro first second assemblies run hall
  have h := grownFrom_apply_default (MetadataSet.faithful_source assemblies)
  have hmem : "N.Y" ∈ run.1.fullNames :=
    hall second (List.mem_cons_of_mem _ List.mem_cons_self) _ List.mem_cons_self rfl rfl
      (by decide) (by decide)
  obtain ⟨y, hy, hn⟩ := h.contains_iff_mem.mp (h.mem_fullNames_iff.mp hmem)
  obtain ⟨i, hi⟩ := List.mem_iff_getElem?.mp hy
  rcases h.justified i y hi with ⟨s, hs, args, ho, -⟩ | ⟨j, -, e, ty, he, hm, -⟩
  · -- the only name that is seeded leads to the first assembly
    have hseeds : (({} : SeedChoice).seeds (MetadataSet.ofAssemblies assemblies)).reverse =
        [.assembly "A", .assembly "A"] := rfl
    have hseed : s = .assembly "A" := by simpa [hseeds] using hs
    subst hseed
    obtain ⟨exports, hexports, hexp, -⟩ := ho
    cases hexports
    cases List.mem_singleton.mp (List.mem_filter.mp hexp).1
    revert hn
    decide
  · -- no definition of the manifest mentions another type
    have hdef : e ∈ first.types ++ second.types :=
      h.definitions_subset (List.mem_of_getElem? he)
    have hempty : e.methods = [] ∧ e.base = none := by
      rcases List.mem_append.mp hdef with hdef | hdef <;>
        cases List.mem_singleton.mp hdef <;> exact ⟨rfl, rfl⟩
    simp [TypeDef.Mentions, hempty] at hm

end SeedChoice

end Typings
