import Typings.Proofs.Graph.Extension

/-! # Each new type is expanded once

An admission does two things at once: it appends a definition to the graph and puts it in front of
the pending ones (`Frontier.Grew`). The loop takes every pending definition off once, so what it has
expanded in the end is what was pending at the start together with what was appended since. After a
seed that is exactly what the seed appended. The loop cannot go on for longer than there are names:
a graph over a set has no more types than the set has full names.
-/
namespace Typings

variable {src : Source}

namespace Frontier

/-- The frontier has gained definitions: the last of them is the first one pending. -/
def Grew (f f' : Frontier) (admitted : List TypeDef) : Prop :=
  f'.graph.definitions = f.graph.definitions ++ admitted ∧
    f'.pending = admitted.reverse ++ f.pending

theorem Grew.refl (f : Frontier) : f.Grew f [] := by
  simp [Grew]

theorem Grew.enter {f f' : Frontier} {admitted : List TypeDef} (h : f.Grew f' admitted)
    (d : TypeDef) : f.Grew (f'.enter d) (admitted ++ [d]) := by
  constructor
  · rw [graph_enter, TypeGraph.definitions_insert, h.1, List.append_assoc]
  · rw [pending_enter, h.2, List.reverse_append]
    rfl

theorem exists_grew_expand (src : Source) (f : Frontier) (d : TypeDef) :
    ∃ admitted, f.Grew (expand src f d) admitted :=
  foldl_offer_induction (P := fun f' => ∃ admitted, f.Grew f' admitted) d.offers
    (fun _ _ _ e _ _ ⟨admitted, h⟩ => ⟨admitted ++ [e], h.enter e⟩) ⟨[], .refl f⟩

/-- By induction on the turns of the loop: a turn moves one definition from the pending ones to the
expanded ones and appends to both the graph and the pending ones. -/
theorem expanded_perm_close (src : Source) (f : Frontier) :
    ∃ admitted, (f.close src).graph.definitions = f.graph.definitions ++ admitted ∧
      (f.close src).expanded.Perm (f.pending ++ admitted) := by
  induction f using close.induct src with
  | case1 f hp =>
    obtain ⟨g, pending⟩ := f
    cases hp
    exact ⟨[], by rw [close_nil, List.append_nil], by rw [close_nil]; exact .nil⟩
  | case2 f d pending hp ih =>
    obtain ⟨g, pending'⟩ := f
    cases hp
    obtain ⟨first, hgraph, hpending⟩ := exists_grew_expand src ⟨g, pending⟩ d
    obtain ⟨later, hdefs, hperm⟩ := ih
    refine ⟨first ++ later, ?_, ?_⟩
    · rw [close_cons, ← List.append_assoc, ← hgraph]
      exact hdefs
    · rw [close_cons, List.cons_append]
      refine .cons d (hperm.trans ?_)
      rw [hpending]
      have hfirst : (first.reverse ++ pending).Perm (pending ++ first) :=
        ((List.reverse_perm first).append_right pending).trans List.perm_append_comm
      rw [← List.append_assoc]
      exact hfirst.append_right later

end Frontier

namespace TypeGraph

variable {g : TypeGraph}

theorem exists_grew_offerSeed {s : Seed} {f : Frontier} (hs : g.offerSeed src s = .ok f) :
    ∃ admitted, g.frontier.Grew f admitted :=
  offerSeed_induction (P := fun f => ∃ admitted, g.frontier.Grew f admitted)
    (fun _ d _ _ _ _ ⟨admitted, h⟩ => ⟨admitted ++ [d], h.enter d⟩) ⟨[], .refl _⟩ hs

/-- What a seed expands is what it admits, in some order. -/
theorem expanded_perm_seed {s : Seed} {growth : Growth} (hs : g.seed src s = .ok growth) :
    ∃ admitted, growth.graph.definitions = g.definitions ++ admitted ∧
      growth.expanded.Perm admitted := by
  obtain ⟨f, hf, rfl⟩ := seed_ok_iff.mp hs
  obtain ⟨first, hgraph, hpending⟩ := exists_grew_offerSeed hf
  obtain ⟨later, hdefs, hperm⟩ := Frontier.expanded_perm_close src f
  refine ⟨first ++ later, ?_, ?_⟩
  · rw [Frontier.closeLinked, definitions_linkBases, hdefs, hgraph, List.append_assoc]
    rfl
  · refine hperm.trans ?_
    rw [hpending, frontier, List.append_nil]
    exact (List.reverse_perm first).append_right later

theorem Indexed.lookup_fullName (h : g.Indexed) {i : Nat} {d : TypeDef}
    (hd : g.definitions[i]? = some d) : g.lookup d.fullName = some ⟨i⟩ := by
  rw [getElem?_definitions] at hd
  obtain ⟨x, hx, rfl⟩ := Option.map_eq_some_iff.mp hd
  exact (h.lookup_iff _ _).mpr ⟨x, hx, h.fullName_eq x (mem_descriptors_iff.mpr ⟨_, hx⟩)⟩

/-- Appended definitions stand at the positions behind the earlier ones. -/
theorem Indexed.map_lookup_appended (h : g.Indexed) {before admitted : List TypeDef}
    (hdefs : g.definitions = before ++ admitted) :
    admitted.map (fun d => g.lookup d.fullName) =
      (List.range admitted.length).map fun k => some ⟨before.length + k⟩ := by
  refine List.ext_getElem (by simp) fun k hk _ => ?_
  rw [List.length_map] at hk
  have hd : g.definitions[before.length + k]? = some admitted[k] := by
    rw [hdefs, List.getElem?_append_right (Nat.le_add_right _ _), Nat.add_sub_cancel_left,
      List.getElem?_eq_getElem hk]
  rw [List.getElem_map, List.getElem_map, List.getElem_range, h.lookup_fullName hd]

/-- The types of a graph over a set have names of that set, and no two of them the same. -/
theorem GrownFrom.size_le {assemblies : List AssemblyDef} {seeds : List Seed}
    (h : g.GrownFrom (MetadataSet.ofAssemblies assemblies).source seeds) :
    g.size ≤ (MetadataSet.ofAssemblies assemblies).size := by
  have hsubset : g.fullNames ⊆
      ((MetadataSet.ofAssemblies assemblies).definitions.map TypeDef.fullName).dedup := by
    intro name hname
    obtain ⟨d, hd, rfl⟩ := h.contains_iff_mem.mp (h.mem_fullNames_iff.mp hname)
    exact List.mem_dedup.mpr (List.mem_map_of_mem (h.definitions_subset hd))
  have hle := h.fullNames_nodup.length_le_of_subset hsubset
  rw [MetadataSet.size_eq_length_dedup]
  simpa [fullNames, size] using hle

/-- Over any manifest, several of its definitions possibly sharing a full name, from the graph that
any operations have led to. When a seed succeeds, the positions of the types that its closure takes
off the pending ones are the positions that the seed has added to the graph, each of them once, so
there are as many turns as the number it answers. Whether it succeeds or not, there are at most as
many types afterwards as the manifest has distinct full names. -/
theorem closure_expands_each_admitted_once (assemblies : List AssemblyDef) (ops : List Operation) :
    let set := MetadataSet.ofAssemblies assemblies
    let g := empty.applyAll set.source ops
    (∀ s growth, g.seed set.source s = .ok growth →
        (growth.expanded.map fun d => growth.graph.lookup d.fullName).Perm
            ((List.range growth.added).map fun k => some ⟨g.size + k⟩) ∧
          growth.expanded.length = growth.added ∧
          growth.graph.size = g.size + growth.added) ∧
      set.size = (set.definitions.map TypeDef.fullName).dedup.length ∧
      ∀ s, (g.apply set.source (.seed s)).size ≤ set.size := by
  intro set g
  have hsrc : set.source.Faithful := MetadataSet.faithful_source assemblies
  have hg : g.GrownFrom set.source (liveSeeds ops) := grownFrom_applyAll hsrc ops
  refine ⟨?_, MetadataSet.size_eq_length_dedup assemblies, fun s => (hg.apply hsrc _).size_le⟩
  intro s growth hs
  obtain ⟨admitted, hdefs, hperm⟩ := expanded_perm_seed hs
  have hsize := size_seed hs
  have hlength : admitted.length = growth.added := by
    have hcount := congrArg List.length hdefs
    rw [List.length_append, ← size_eq_length_definitions, ← size_eq_length_definitions,
      hsize] at hcount
    omega
  have hindexed : growth.graph.Indexed :=
    graph_seed_eq_apply hs ▸ (hg.toLinked.apply (.seed s)).toIndexed
  refine ⟨?_, hperm.length_eq.trans hlength, hsize⟩
  have hplaces := hindexed.map_lookup_appended hdefs
  rw [hlength, ← size_eq_length_definitions] at hplaces
  exact hplaces ▸ hperm.map _

end TypeGraph

end Typings
