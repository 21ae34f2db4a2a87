import Typings.Proofs.Graph.Reachability

/-! # Seeding appends, and replaying a seed does nothing

A seed appends definitions and looks all bases up again. Links are read off definitions and names,
and neither goes away, so every descriptor stays what it was and where it was; at most it gains a
base. Completeness then decides a replay: what a seed brings has been in the graph since the seed
first succeeded, so its second offers are all refused, nothing is pending, and linking a linked
graph changes nothing.
-/
namespace Typings.TypeGraph

variable {src : Source} {g h : TypeGraph}

/-! ## Extension -/

/-- Every descriptor of the one graph stands in the other at its position, with the base it had if
it had one. -/
def ExtendedBy (g h : TypeGraph) : Prop :=
  ∀ id x, g.get? id = some x → ∃ y, h.get? id = some y ∧ y.fullName = x.fullName ∧
    y.definition = x.definition ∧ y.kind = x.kind ∧ ∀ j, x.base = some j → y.base = some j

/-- Definitions that are only appended to carry everything else along, bases included: the type
that a base reference named is still at its position. -/
theorem Linked.extendedBy (hg : g.Linked) (hh : h.Linked) (hp : g.definitions <+: h.definitions) :
    g.ExtendedBy h := by
  have keep : ∀ id x, g.get? id = some x →
      ∃ y, h.get? id = some y ∧ y.fullName = x.fullName ∧ y.definition = x.definition ∧
        y.kind = x.kind := by
    intro ⟨i⟩ x hx
    have hi : g.definitions[i]? = some x.definition := by rw [getElem?_definitions, hx]; rfl
    have hi' : h.definitions[i]? = some x.definition := by
      obtain ⟨appended, ha⟩ := hp
      rwa [← ha, List.getElem?_append_left (List.getElem?_eq_some_iff.mp hi).1]
    rw [getElem?_definitions] at hi'
    obtain ⟨y, hy, hd⟩ := Option.map_eq_some_iff.mp hi'
    have hxm : x ∈ g.descriptors := mem_descriptors_iff.mpr ⟨_, hx⟩
    have hym : y ∈ h.descriptors := mem_descriptors_iff.mpr ⟨_, hy⟩
    refine ⟨y, hy, ?_, hd, ?_⟩
    · rw [hh.fullName_eq y hym, hg.fullName_eq x hxm, hd]
    · rw [hh.kind_eq y hym, hg.kind_eq x hxm, hd]
  intro id x hx
  obtain ⟨y, hy, hn, hd, hk⟩ := keep id x hx
  refine ⟨y, hy, hn, hd, hk, fun j hj => ?_⟩
  obtain ⟨b, hb, href⟩ := (hg.base_iff (mem_descriptors_iff.mpr ⟨_, hx⟩) j).mp hj
  obtain ⟨b', hb', hbn, -⟩ := keep j b hb
  exact (hh.base_iff (mem_descriptors_iff.mpr ⟨_, hy⟩) j).mpr ⟨b', hb', by rw [hd, href, hbn]⟩

theorem size_eq_length_definitions (g : TypeGraph) : g.size = g.definitions.length := by
  simp [size, definitions]

theorem definitions_prefix_apply (g : TypeGraph) (s : Seed) :
    g.definitions <+: (g.apply src (.seed s)).definitions := by
  refine apply_seed_induction (P := fun h => g.definitions <+: h.definitions) ?_ ?_
    (List.prefix_refl _) s
  · intro h d _ _ _ hp
    rw [definitions_insert]
    exact hp.trans (List.prefix_append _ _)
  · intro h hp
    rwa [definitions_linkBases]

theorem definitions_prefix_applyAll (g : TypeGraph) (seeds : List Seed) :
    g.definitions <+: (g.applyAll src (seeds.map .seed)).definitions := by
  induction seeds generalizing g with
  | nil => exact List.prefix_refl _
  | cons s seeds ih => exact (g.definitions_prefix_apply s).trans (ih _)

/-! ## What seeds answer -/

theorem graph_seed_eq_apply {s : Seed} {growth : Growth} (hs : g.seed src s = .ok growth) :
    growth.graph = g.apply src (.seed s) := by
  rw [apply, hs]

theorem seed_ok_iff {s : Seed} {growth : Growth} :
    g.seed src s = .ok growth ↔ ∃ f, g.offerSeed src s = .ok f ∧
      growth = { f.closeLinked src with added := (f.closeLinked src).graph.size - g.size } := by
  unfold seed
  cases g.offerSeed src s with
  | error unknown => simp
  | ok f => simp [eq_comm]

/-- The number that a seed answers is the number of descriptors it has appended. -/
theorem size_seed {s : Seed} {growth : Growth} (hs : g.seed src s = .ok growth) :
    growth.graph.size = g.size + growth.added := by
  have hp : g.definitions.length ≤ (g.apply src (.seed s)).definitions.length :=
    (g.definitions_prefix_apply s).length_le
  rw [← graph_seed_eq_apply hs, ← size_eq_length_definitions, ← size_eq_length_definitions] at hp
  obtain ⟨f, -, rfl⟩ := seed_ok_iff.mp hs
  exact (Nat.add_sub_cancel' hp).symm

/-- What the successful ones of some seeds answer, in order. -/
def counts (src : Source) (g : TypeGraph) : List Seed → List Nat
  | [] => []
  | s :: seeds =>
    match g.seed src s with
    | .ok growth => growth.added :: growth.graph.counts src seeds
    | .error _ => g.counts src seeds

theorem size_applyAll (g : TypeGraph) (seeds : List Seed) :
    (g.applyAll src (seeds.map .seed)).size = g.size + (g.counts src seeds).foldr (· + ·) 0 := by
  induction seeds generalizing g with
  | nil => rfl
  | cons s seeds ih =>
    have hstep : g.applyAll src ((s :: seeds).map .seed) =
        (g.apply src (.seed s)).applyAll src (seeds.map .seed) := rfl
    rw [hstep, ih, counts]
    cases hs : g.seed src s with
    | error unknown => rw [apply, hs]
    | ok growth => rw [← graph_seed_eq_apply hs, size_seed hs, List.foldr_cons, Nat.add_assoc]

/-! ## Replay -/

/-- Whether a seed fails is decided by the source alone. -/
theorem offerSeed_isOk (g h : TypeGraph) (s : Seed) :
    (g.offerSeed src s).isOk = (h.offerSeed src s).isOk := by
  cases s with
  | assembly name => simp only [offerSeed]; cases src.exported name <;> rfl
  | named fullName => simp only [offerSeed]; cases src.typeDef fullName <;> rfl
  | reference ty => rfl

/-- A seed whose offers are all there already admits nothing. -/
theorem offerSeed_eq_frontier {s : Seed} {f : Frontier} (hs : g.offerSeed src s = .ok f)
    (hall : ∀ d, s.Brings src d → g.contains d.fullName = true) : f = g.frontier := by
  refine offerSeed_induction (P := fun f => f = g.frontier) ?_ rfl hs
  rintro _ d args ho ha hnew rfl
  have hold : g.frontier.graph.contains d.fullName = true := hall d ⟨args, ho, ha⟩
  rw [hold] at hnew; cases hnew

theorem Linked.linkBases_eq (hg : g.Linked) : g.linkBases = g := by
  have hmap : (g.descriptors.map fun x => { x with base := g.baseOf x.definition }) =
      g.descriptors := by
    refine (Array.map_congr_left fun x hx => ?_).trans (Array.map_id _)
    rw [← hg.base_eq x hx]; rfl
  rw [linkBases, hmap]

theorem Linked.closeLinked_frontier (hg : g.Linked) : g.frontier.closeLinked src = ⟨g, []⟩ := by
  rw [Frontier.closeLinked, frontier, Frontier.close_nil, hg.linkBases_eq]

/-- A live seed that succeeds once more answers 0 and leaves the graph as it is. -/
theorem GrownFrom.seed_of_mem {seeds : List Seed} (hg : g.GrownFrom src seeds) {s : Seed}
    (hs : s ∈ seeds) (hok : (g.offerSeed src s).isOk = true) :
    g.seed src s = .ok ⟨⟨g, []⟩, 0⟩ := by
  cases hf : g.offerSeed src s with
  | error unknown => rw [hf] at hok; cases hok
  | ok f =>
    cases offerSeed_eq_frontier hf (hg.seeded s hs)
    rw [seed, hf]
    simp only [hg.closeLinked_frontier, Nat.sub_self]

/-- Over any manifest, from the graph that any operations have led to. A seed that succeeds leaves
every descriptor at its position with its name, definition and kind and with the base it had, and
answers the number of descriptors that it appended; after any further seeds, failed ones included,
it succeeds again, answers 0 and changes nothing. A seed that fails changes nothing. So seeds one
after the other only extend the graph, by as many types as they answer together. -/
theorem seeding_extends_and_replays (assemblies : List AssemblyDef) (ops : List Operation) :
    let src := (MetadataSet.ofAssemblies assemblies).source
    let g := empty.applyAll src ops
    (∀ s growth, g.seed src s = .ok growth →
        g.ExtendedBy growth.graph ∧ growth.graph.size = g.size + growth.added ∧
        ∀ seeds : List Seed,
          let later := growth.graph.applyAll src (seeds.map .seed)
          ∃ again, later.seed src s = .ok again ∧ again.added = 0 ∧ again.graph = later) ∧
      (∀ s unknown, g.seed src s = .error unknown → g.apply src (.seed s) = g) ∧
      ∀ seeds : List Seed,
        let later := g.applyAll src (seeds.map .seed)
        g.ExtendedBy later ∧ later.size = g.size + (g.counts src seeds).foldr (· + ·) 0 := by
  intro src g
  have hsrc : src.Faithful := MetadataSet.faithful_source assemblies
  have hg : g.GrownFrom src (liveSeeds ops) := grownFrom_applyAll hsrc ops
  refine ⟨?_, ?_, ?_⟩
  · intro s growth hs
    have happly : growth.graph = g.apply src (.seed s) := graph_seed_eq_apply hs
    have hgrown : growth.graph.GrownFrom src (s :: liveSeeds ops) :=
      happly ▸ hg.apply hsrc (.seed s)
    refine ⟨hg.extendedBy hgrown.toLinked ?_, size_seed hs, fun seeds => ?_⟩
    · rw [happly]; exact g.definitions_prefix_apply s
    · have hlater := hgrown.applyAll_seeds hsrc seeds
      have hmem : s ∈ seeds.reverse ++ s :: liveSeeds ops :=
        List.mem_append_right _ List.mem_cons_self
      obtain ⟨f, hf, -⟩ := seed_ok_iff.mp hs
      have hok : (g.offerSeed src s).isOk = true := by rw [hf]; rfl
      rw [offerSeed_isOk g (growth.graph.applyAll src (seeds.map .seed))] at hok
      exact ⟨_, hlater.seed_of_mem hmem hok, rfl, rfl⟩
  · intro s unknown hs
    rw [apply, hs]
  · intro seeds
    exact ⟨hg.extendedBy (hg.toLinked.applyAll _) (g.definitions_prefix_applyAll seeds),
      g.size_applyAll seeds⟩

end Typings.TypeGraph
