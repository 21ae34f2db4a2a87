import Mathlib.Data.List.Nodup
import Typings.Proofs.Graph.Arena
import Typings.Proofs.NameIndex

/-! # What a graph holds

Completeness: whatever a live seed offers and an admitted definition mentions is in the graph, if
nothing but its presence keeps it out. The loop invariant is `SettledExcept`: only pending
definitions may still mention something that is missing. Soundness: each definition was offered by a
live seed, or is mentioned by one at a smaller position, so no definitions justify each other in a
circle. Both rest on `Source.Faithful`: an offer is refused when the name of the reference is taken,
and only a faithful source makes that the name of the definition.
-/
namespace Typings

/-- A seed offers a definition that only its presence can keep out. -/
def Seed.Brings (src : Source) (d : TypeDef) (s : Seed) : Prop :=
  ∃ args, s.Offers src d args ∧ d.Admissible args

/-- Nothing that a definition mentions is missing. -/
def Settled (src : Source) (g : TypeGraph) (d : TypeDef) : Prop :=
  ∀ ty, d.Mentions ty → ∀ e, src.Admits ty e → g.contains e.fullName = true

/-- Each definition was there for a reason of its own, or one before it mentions it. -/
def Justified (src : Source) (S : TypeDef → Prop) (ds : List TypeDef) : Prop :=
  ∀ (i : Nat) (d : TypeDef), ds[i]? = some d →
    S d ∨ ∃ j < i, ∃ (e : TypeDef) (ty : TypeRef),
      ds[j]? = some e ∧ e.Mentions ty ∧ src.Admits ty d

variable {src : Source} {S : TypeDef → Prop}

theorem Justified.nil : Justified src S [] := by
  intro i d h
  simp at h

theorem Justified.mono {S' : TypeDef → Prop} {ds : List TypeDef} (h : Justified src S ds)
    (hS : ∀ d, S d → S' d) : Justified src S' ds :=
  fun i d hd => (h i d hd).imp_left (hS d)

theorem Justified.concat {ds : List TypeDef} {d : TypeDef} (h : Justified src S ds)
    (hd : S d ∨ ∃ e ∈ ds, ∃ ty, e.Mentions ty ∧ src.Admits ty d) :
    Justified src S (ds ++ [d]) := by
  have keep : ∀ {j : Nat} {e : TypeDef}, ds[j]? = some e → (ds ++ [d])[j]? = some e := by
    intro j e hj
    obtain ⟨hlt, -⟩ := List.getElem?_eq_some_iff.mp hj
    rwa [List.getElem?_append_left hlt]
  intro i x hx
  rcases Nat.lt_or_ge i ds.length with hi | hi
  · rw [List.getElem?_append_left hi] at hx
    rcases h i x hx with hs | ⟨j, hj, e, ty, he, hm, ha⟩
    · exact .inl hs
    · exact .inr ⟨j, hj, e, ty, keep he, hm, ha⟩
  · rw [List.getElem?_append_right hi, List.getElem?_singleton] at hx
    split at hx
    · cases hx
      rcases hd with hs | ⟨e, he, ty, hm, ha⟩
      · exact .inl hs
      · obtain ⟨j, hj⟩ := List.mem_iff_getElem?.mp he
        obtain ⟨hlt, -⟩ := List.getElem?_eq_some_iff.mp hj
        exact .inr ⟨j, Nat.lt_of_lt_of_le hlt hi, e, ty, keep hj, hm, ha⟩
    · cases hx

/-- Whatever the reasons, a justified definition passes the tests of admission. -/
theorem Justified.admissible {ds : List TypeDef} {d : TypeDef} (h : Justified src S ds)
    (hS : ∀ d, S d → ∃ args, d.Admissible args) (hd : d ∈ ds) : ∃ args, d.Admissible args := by
  obtain ⟨i, hi⟩ := List.mem_iff_getElem?.mp hd
  rcases h i d hi with hs | ⟨_, _, _, ty, _, _, ha⟩
  · exact hS d hs
  · exact ⟨ty.args, ha.2⟩

namespace Frontier

/-! ## The presence of a name -/

theorem contains_enter {f : Frontier} {d : TypeDef} {name : String}
    (h : f.graph.contains name = true) : (f.enter d).graph.contains name = true := by
  rw [graph_enter, TypeGraph.contains_insert, h, Bool.or_true]

theorem contains_offer_of_contains {f : Frontier} {name : String}
    (h : f.graph.contains name = true) (ty : TypeRef) :
    (offer src f ty).graph.contains name = true := by
  rcases offer_cases src f ty with ⟨d, -, -, he⟩ | ⟨-, he⟩
  · rw [he]; exact contains_enter h
  · rw [he]; exact h

theorem contains_expand {f : Frontier} {name : String} (h : f.graph.contains name = true)
    (d : TypeDef) : (expand src f d).graph.contains name = true :=
  List.foldlRecOn (motive := fun f => f.graph.contains name = true) d.offers (offer src) h
    fun _ hf ty _ => contains_offer_of_contains hf ty

theorem contains_offerDef_of_contains {f : Frontier} {name : String}
    (h : f.graph.contains name = true) (d : TypeDef) (args : List TypeRef) :
    (f.offerDef d args).graph.contains name = true := by
  rcases f.offerDef_cases d args with ⟨-, -, he⟩ | ⟨-, he⟩
  · rw [he]; exact contains_enter h
  · rw [he]; exact h

theorem contains_close {f : Frontier} {name : String} (h : f.graph.contains name = true) :
    (f.close src).graph.contains name = true :=
  close_induction (P := fun f => f.graph.contains name = true)
    (fun g d pending hf => contains_expand (f := ⟨g, pending⟩) hf d) h

theorem contains_offerDef {f : Frontier} {d : TypeDef} {args : List TypeRef}
    (h : d.Admissible args) : (f.offerDef d args).graph.contains d.fullName = true := by
  rcases f.offerDef_cases d args with ⟨-, -, he⟩ | ⟨hc, he⟩
  · rw [he, graph_enter, TypeGraph.contains_insert]; simp
  · rw [he]; exact hc h

/-- An offered reference leaves no definition out that it admits. -/
theorem contains_offer (hsrc : src.Faithful) {f : Frontier} {ty : TypeRef} {d : TypeDef}
    (h : src.Admits ty d) : (offer src f ty).graph.contains d.fullName = true := by
  obtain ⟨name, hname, -, hd⟩ := h.1
  rcases offer_cases src f ty with ⟨e, he, -, henter⟩ | ⟨hpresent, hsame⟩
  · obtain ⟨name', hname', -, he'⟩ := he.1
    cases hname.symm.trans hname'
    cases hd.symm.trans he'
    rw [henter, graph_enter, TypeGraph.contains_insert]; simp
  · rw [hsame]
    rcases hpresent d h with hc | ⟨name', hname', hc⟩
    · exact hc
    · cases hname.symm.trans hname'
      rw [hsrc hd]; exact hc

/-- What one element brings about and every element keeps holds after a fold over all of them. -/
theorem foldl_of_mem {α : Type} {P : Frontier → Prop} {op : Frontier → α → Frontier} {xs : List α}
    {x : α} (hx : x ∈ xs) (hit : ∀ f, P (op f x)) (keep : ∀ f y, P f → P (op f y))
    (f : Frontier) : P (xs.foldl op f) := by
  obtain ⟨before, after, rfl⟩ := List.append_of_mem hx
  rw [List.foldl_append, List.foldl_cons]
  exact List.foldlRecOn after op (hit _) fun f hf y _ => keep f y hf

theorem contains_foldl_offerDef {ds : List TypeDef} {d : TypeDef} (hd : d ∈ ds)
    (ha : d.Admissible d.genericArgs) (f : Frontier) :
    (ds.foldl (fun f d => f.offerDef d d.genericArgs) f).graph.contains d.fullName = true :=
  foldl_of_mem (P := fun f => f.graph.contains d.fullName = true) hd (fun _ => contains_offerDef ha)
    (fun _ e hf => contains_offerDef_of_contains hf e e.genericArgs) f

/-! ## Completeness of the loop -/

/-- Only the listed definitions may still mention something that is missing. -/
def SettledExcept (src : Source) (g : TypeGraph) (rest : List TypeDef) : Prop :=
  ∀ d ∈ g.definitions, d ∈ rest ∨ Settled src g d

theorem SettledExcept.enter {f : Frontier} {rest : List TypeDef}
    (h : SettledExcept src f.graph rest) (d : TypeDef) :
    SettledExcept src (f.enter d).graph (d :: rest) := by
  intro e he
  rcases TypeGraph.mem_definitions_insert.mp he with he | rfl
  · rcases h e he with hr | hs
    · exact .inl (List.mem_cons_of_mem _ hr)
    · exact .inr fun ty hty x hx => contains_enter (hs ty hty x hx)
  · exact .inl List.mem_cons_self

/-- Expansion settles the definition it expands: what that one mentions is offered, or names the
definition itself, which is present. -/
theorem settled_expand (hsrc : src.Faithful) {f : Frontier} {d : TypeDef}
    (hd : f.graph.contains d.fullName = true) : Settled src (expand src f d).graph d := by
  intro ty hty e he
  rcases hty.mem_offers with hself | hoffer
  · obtain ⟨name, hname, -, hdef⟩ := he.1
    cases hself.symm.trans hname
    rw [hsrc hdef]
    exact contains_expand hd d
  · exact foldl_of_mem (P := fun f => f.graph.contains e.fullName = true) hoffer
      (fun _ => contains_offer hsrc he) (fun _ t hf => contains_offer_of_contains hf t) f

theorem settledExcept_expand (hsrc : src.Faithful) {g : TypeGraph} {d : TypeDef}
    {pending : List TypeDef} (hf : Sound ⟨g, d :: pending⟩)
    (h : SettledExcept src g (d :: pending)) :
    SettledExcept src (expand src ⟨g, pending⟩ d).graph (expand src ⟨g, pending⟩ d).pending := by
  -- while its references are offered, the expanded definition stands behind the pending ones
  have hstart : SettledExcept src g (pending ++ [d]) := by
    intro e he
    rcases h e he with hr | hs
    · exact .inl (by simpa [or_comm] using hr)
    · exact .inr hs
  have hloop : SettledExcept src (expand src ⟨g, pending⟩ d).graph
      ((expand src ⟨g, pending⟩ d).pending ++ [d]) :=
    foldl_offer_induction (P := fun f => SettledExcept src f.graph (f.pending ++ [d])) d.offers
      (fun _ _ _ e _ _ hf => hf.enter e) hstart
  have hd : g.contains d.fullName = true :=
    hf.indexed.contains_iff_mem.mpr ⟨d, hf.pending_mem d List.mem_cons_self, rfl⟩
  intro e he
  rcases hloop e he with hr | hs
  · rcases List.mem_append.mp hr with hr | hr
    · exact .inl hr
    · cases List.mem_singleton.mp hr
      exact .inr (settled_expand hsrc (f := ⟨g, pending⟩) hd)
  · exact .inr hs

/-- Once nothing is pending, no admitted definition mentions anything that is missing. -/
theorem settled_close (hsrc : src.Faithful) {f : Frontier} (hf : f.Sound)
    (h : SettledExcept src f.graph f.pending) :
    ∀ d ∈ (f.close src).graph.definitions, Settled src (f.close src).graph d := by
  have hend : SettledExcept src (f.close src).graph [] :=
    (close_induction (P := fun f => f.Sound ∧ SettledExcept src f.graph f.pending)
      (fun _ d _ hf => ⟨hf.1.tail.expand d, settledExcept_expand hsrc hf.1 hf.2⟩) ⟨hf, h⟩).2
  intro d hd
  rcases hend d hd with hr | hs
  · cases hr
  · exact hs

/-! ## Soundness of the loop -/

theorem justified_expand {f : Frontier} {d : TypeDef} (hd : d ∈ f.graph.definitions)
    (h : Justified src S f.graph.definitions) :
    Justified src S (expand src f d).graph.definitions := by
  refine (foldl_offer_induction
    (P := fun f => d ∈ f.graph.definitions ∧ Justified src S f.graph.definitions) d.offers
    ?_ ⟨hd, h⟩).2
  rintro f ty hty e he - ⟨hd, h⟩
  rw [graph_enter, TypeGraph.definitions_insert]
  exact ⟨List.mem_append_left _ hd,
    h.concat (.inr ⟨d, hd, ty, TypeDef.mentions_of_mem_offers hty, he⟩)⟩

theorem justified_close {f : Frontier} (hf : f.Sound)
    (h : Justified src S f.graph.definitions) :
    Justified src S (f.close src).graph.definitions := by
  refine (close_induction (P := fun f => f.Sound ∧ Justified src S f.graph.definitions)
    ?_ ⟨hf, h⟩).2
  rintro g d pending ⟨hf, h⟩
  have hd := hf.pending_mem d List.mem_cons_self
  exact ⟨hf.tail.expand d, justified_expand (f := ⟨g, pending⟩) hd h⟩

end Frontier

/-! ## Runs -/

/-- The live seeds after one more operation, the latest first. -/
def Operation.live (seeds : List Seed) : Operation → List Seed
  | .seed s => s :: seeds
  | .clear => []

/-- The seeds since the last clearing, failed ones included. -/
def liveSeeds (ops : List Operation) : List Seed := ops.foldl Operation.live []

theorem foldl_live_map_seed (seeds live : List Seed) :
    (seeds.map Operation.seed).foldl Operation.live live = seeds.reverse ++ live := by
  induction seeds generalizing live with
  | nil => rfl
  | cons s seeds ih =>
    rw [List.map_cons, List.foldl_cons, ih]
    simp [Operation.live]

namespace TypeGraph

variable {g : TypeGraph}

theorem contains_offerExports {types : List TypeDef} {d : TypeDef} (hd : d ∈ types)
    (hp : d.isPublic = true) (ha : d.Admissible d.genericArgs) :
    (g.offerExports types).graph.contains d.fullName = true :=
  Frontier.contains_foldl_offerDef (List.mem_filter.mpr ⟨hd, hp⟩) ha _

/-- A seed that succeeds leaves no definition out that it brings. -/
theorem contains_offerSeed (hsrc : src.Faithful) {s : Seed} {f : Frontier}
    (hf : g.offerSeed src s = .ok f) {d : TypeDef} (h : s.Brings src d) :
    f.graph.contains d.fullName = true := by
  obtain ⟨args, ho, ha⟩ := h
  cases s with
  | assembly name =>
    obtain ⟨e, he, hd, hp, rfl⟩ := ho
    simp only [offerSeed, he] at hf
    cases hf
    exact contains_offerExports hd hp ha
  | named fullName =>
    obtain ⟨hd, rfl⟩ := ho
    simp only [offerSeed, hd] at hf
    cases hf
    exact Frontier.contains_offerDef ha
  | reference ty =>
    obtain ⟨hr, rfl⟩ := ho
    cases hf
    exact Frontier.contains_offer hsrc ⟨hr, ha⟩

/-- A linked graph that holds what its seeds bring and its definitions mention, and nothing that
has no such reason. -/
structure GrownFrom (src : Source) (seeds : List Seed) (g : TypeGraph) : Prop extends Linked g where
  seeded : ∀ s ∈ seeds, ∀ d, s.Brings src d → g.contains d.fullName = true
  settled : ∀ d ∈ g.definitions, Settled src g d
  justified : Justified src (fun d => ∃ s ∈ seeds, s.Brings src d) g.definitions

theorem GrownFrom.empty : GrownFrom src [] TypeGraph.empty where
  toLinked := .empty
  seeded := by simp
  settled := by simp
  justified := .nil

/-- A seed that fails brings nothing, so the graph it leaves is grown from it too. -/
theorem GrownFrom.of_error {seeds : List Seed} (h : g.GrownFrom src seeds) {s : Seed}
    {unknown : UnknownSeed} (hs : g.offerSeed src s = .error unknown) :
    g.GrownFrom src (s :: seeds) where
  toLinked := h.toLinked
  seeded t ht d hd := by
    rcases List.mem_cons.mp ht with rfl | ht
    · obtain ⟨args, ho, -⟩ := hd
      exact absurd ho (not_offers_of_error hs d args)
    · exact h.seeded t ht d hd
  settled := h.settled
  justified := h.justified.mono fun _ ⟨t, ht, hb⟩ => ⟨t, List.mem_cons_of_mem _ ht, hb⟩

theorem GrownFrom.of_ok (hsrc : src.Faithful) {seeds : List Seed} (h : g.GrownFrom src seeds)
    {s : Seed} {f : Frontier} (hs : g.offerSeed src s = .ok f) :
    (f.close src).graph.linkBases.GrownFrom src (s :: seeds) where
  toLinked := (h.offerSeed hs).close.linkBases
  seeded t ht d hd := by
    refine Frontier.contains_close ?_
    rcases List.mem_cons.mp ht with rfl | ht
    · exact contains_offerSeed hsrc hs hd
    · exact offerSeed_induction (P := fun f => f.graph.contains d.fullName = true)
        (fun _ _ _ _ _ _ hf => Frontier.contains_enter hf) (h.seeded t ht d hd) hs
  settled := by
    rw [definitions_linkBases]
    refine Frontier.settled_close hsrc (h.offerSeed hs) ?_
    exact offerSeed_induction (P := fun f => Frontier.SettledExcept src f.graph f.pending)
      (fun _ e _ _ _ _ hf => hf.enter e) (fun e he => .inr (h.settled e he)) hs
  justified := by
    rw [definitions_linkBases]
    refine Frontier.justified_close (h.offerSeed hs) ?_
    refine offerSeed_induction (P := fun f =>
      Justified src (fun d => ∃ t ∈ s :: seeds, t.Brings src d) f.graph.definitions) ?_ ?_ hs
    · intro f d args ho ha _ hf
      rw [Frontier.graph_enter, definitions_insert]
      exact hf.concat (.inl ⟨s, List.mem_cons_self, args, ho, ha⟩)
    · exact h.justified.mono fun _ ⟨t, ht, hb⟩ => ⟨t, List.mem_cons_of_mem _ ht, hb⟩

theorem GrownFrom.apply (hsrc : src.Faithful) {seeds : List Seed} (h : g.GrownFrom src seeds)
    (op : Operation) : (g.apply src op).GrownFrom src (op.live seeds) := by
  cases op with
  | clear => exact .empty
  | seed s =>
    rcases g.apply_seed_cases src s with ⟨_, hs, he⟩ | ⟨f, hs, he⟩
    · rw [he]; exact h.of_error hs
    · rw [he]; exact h.of_ok hsrc hs

theorem GrownFrom.applyAll (hsrc : src.Faithful) {seeds : List Seed} (h : g.GrownFrom src seeds)
    (ops : List Operation) :
    (g.applyAll src ops).GrownFrom src (ops.foldl Operation.live seeds) := by
  induction ops generalizing g seeds with
  | nil => exact h
  | cons op ops ih => exact ih (h.apply hsrc op)

/-- Operations lead to a graph that is grown from the live seeds. -/
theorem grownFrom_applyAll (hsrc : src.Faithful) (ops : List Operation) :
    (empty.applyAll src ops).GrownFrom src (liveSeeds ops) :=
  GrownFrom.empty.applyAll hsrc ops

/-- Seeds without a clearing between them are all live. -/
theorem GrownFrom.applyAll_seeds (hsrc : src.Faithful) {live : List Seed}
    (h : g.GrownFrom src live) (seeds : List Seed) :
    (g.applyAll src (seeds.map .seed)).GrownFrom src (seeds.reverse ++ live) :=
  foldl_live_map_seed seeds live ▸ h.applyAll hsrc (seeds.map .seed)

/-- Whatever it was that brought a definition in, it passed the tests of admission. -/
theorem GrownFrom.admissible {seeds : List Seed} (h : g.GrownFrom src seeds) {x : Descriptor}
    (hx : x ∈ g.descriptors) : ∃ args, x.definition.Admissible args :=
  h.justified.admissible (fun _ ⟨_, _, args, _, ha⟩ => ⟨args, ha⟩)
    (mem_definitions_iff.mpr ⟨x, hx, rfl⟩)

theorem mem_definitions_of_brings {set : MetadataSet} {s : Seed} {d : TypeDef} (h : s.Brings set.source d) :
    d ∈ set.definitions := by
  obtain ⟨args, ho, -⟩ := h
  cases s with
  | assembly name =>
    obtain ⟨e, he, hd, -⟩ := ho
    exact MetadataSet.exported_subset he hd
  | named fullName => exact set.source.mem_definitions ho.1
  | reference ty =>
    obtain ⟨⟨name, -, -, hd⟩, -⟩ := ho
    exact set.source.mem_definitions hd

/-- A graph over a set holds definitions of that set only. -/
theorem GrownFrom.definitions_subset {set : MetadataSet} {seeds : List Seed}
    (h : g.GrownFrom set.source seeds) :
    g.definitions ⊆ set.definitions := by
  intro d hd
  obtain ⟨i, hi⟩ := List.mem_iff_getElem?.mp hd
  rcases h.justified i d hi with ⟨s, -, hb⟩ | ⟨_, _, _, ty, _, _, hadm⟩
  · exact mem_definitions_of_brings hb
  · obtain ⟨name, -, -, hdef⟩ := hadm.1
    exact set.source.mem_definitions hdef

/-- A definition whose name is in the graph is in the graph. -/
theorem GrownFrom.mem_of_contains {set : MetadataSet} {seeds : List Seed}
    (hnames : (set.definitions.map TypeDef.fullName).Nodup)
    (h : g.GrownFrom set.source seeds) {d : TypeDef} (hd : d ∈ set.definitions)
    (hc : g.contains d.fullName = true) : d ∈ g.definitions := by
  obtain ⟨e, he, hn⟩ := h.contains_iff_mem.mp hc
  cases List.inj_on_of_nodup_map hnames (h.definitions_subset he) hd hn
  exact he

theorem GrownFrom.mem_of_brings {set : MetadataSet} {seeds : List Seed}
    (hnames : (set.definitions.map TypeDef.fullName).Nodup) (h : g.GrownFrom set.source seeds)
    {s : Seed} (hs : s ∈ seeds) {d : TypeDef} (hb : s.Brings set.source d) : d ∈ g.definitions :=
  h.mem_of_contains hnames (mem_definitions_of_brings hb) (h.seeded s hs d hb)

/-- After any operations on a manifest, several of its definitions possibly sharing a full name.
Complete: what a live seed offers is there if it is admissible, and so is the type that a public
method's signature or the base of an admitted definition names, if it is admissible. Justified:
whatever is there passes every test, and was offered by a live seed or is named in such a place by
a type that was admitted before it. -/
theorem closure_complete_and_justified (assemblies : List AssemblyDef) (ops : List Operation) :
    let src := (MetadataSet.ofAssemblies assemblies).source
    let g := empty.applyAll src ops
    (∀ s ∈ liveSeeds ops, ∀ d args, s.Offers src d args → d.Admissible args →
        d.fullName ∈ g.fullNames) ∧
      (∀ x ∈ g.descriptors, ∀ ty, x.definition.Mentions ty →
        ∀ name d, ty.name? = some name → name ≠ rootType → src.typeDef name = some d →
          d.isNested = false → (∀ arg ∈ ty.args ++ d.genericArgs, arg.isClosed = false) →
          name ∈ g.fullNames) ∧
      ∀ i x, g.get? ⟨i⟩ = some x →
        x.fullName ≠ rootType ∧ x.isNested = false ∧
        (∀ arg ∈ x.genericArgs, arg.isClosed = false) ∧
        ((∃ s ∈ liveSeeds ops, ∃ args, s.Offers src x.definition args ∧
            x.definition.Admissible args) ∨
          ∃ j < i, ∃ y ty, g.get? ⟨j⟩ = some y ∧ y.definition.Mentions ty ∧
            src.Admits ty x.definition) := by
  intro src g
  have hsrc : src.Faithful := MetadataSet.faithful_source assemblies
  have h : g.GrownFrom src (liveSeeds ops) := grownFrom_applyAll hsrc ops
  refine ⟨?_, ?_, ?_⟩
  · intro s hs d args ho ha
    exact h.mem_fullNames_iff.mpr (h.seeded s hs d ⟨args, ho, ha⟩)
  · intro x hx ty hty name d hname hroot hd hnested hclosed
    have hfull : d.fullName = name := hsrc hd
    have hadm : src.Admits ty d :=
      ⟨⟨name, hname, hroot, hd⟩, ⟨hfull ▸ hroot, hnested, hclosed⟩⟩
    have hmem := mem_definitions_iff.mpr ⟨x, hx, rfl⟩
    exact h.mem_fullNames_iff.mpr (hfull ▸ h.settled _ hmem ty hty d hadm)
  · intro i x hx
    have hmem : x ∈ g.descriptors := mem_descriptors_iff.mpr ⟨_, hx⟩
    have hdef : g.definitions[i]? = some x.definition := by rw [getElem?_definitions, hx]; rfl
    obtain ⟨args, ha⟩ := h.admissible hmem
    refine ⟨h.fullName_eq x hmem ▸ ha.not_root, ha.not_nested,
      fun arg harg => ha.not_closed arg (List.mem_append_right _ harg), ?_⟩
    rcases h.justified i _ hdef with hs | ⟨j, hj, e, ty, he, hm, hadm⟩
    · exact .inl hs
    · rw [getElem?_definitions] at he
      obtain ⟨y, hy, rfl⟩ := Option.map_eq_some_iff.mp he
      exact .inr ⟨j, hj, y, ty, hy, hm, hadm⟩

end TypeGraph

end Typings
