import Mathlib.Data.List.Basic
import Mathlib.Data.List.Dedup
import Typings.MetadataSet

/-! # The index of full names

The index of a set is filled place by place, and a name that is taken keeps its place. Places list
the definitions in order, so a set answers with the first of its definitions that has the name asked
for, and its size counts each name once.
-/
namespace Typings

/-- Every look-up is answered with a definition of the name asked for. -/
def Source.Faithful (src : Source) : Prop :=
  ∀ {name : String} {d : TypeDef}, src.typeDef name = some d → d.fullName = name

namespace MetadataSet

/-- A name that is indexed already keeps its place, and of the listed ones the first counts. -/
theorem getElem?_foldl (entries : List (String × Nat × Nat)) (name : String)
    (index : Std.TreeMap String (Nat × Nat)) :
    (entries.foldl (fun index e => index.insertIfNew e.1 e.2) index)[name]? =
      index[name]?.or ((entries.find? fun e => e.1 = name).map Prod.snd) := by
  induction entries generalizing index with
  | nil => simp
  | cons e entries ih =>
    rw [List.foldl_cons, ih, Std.TreeMap.getElem?_insertIfNew, List.find?_cons]
    by_cases hname : e.1 = name
    · subst hname
      by_cases hold : e.1 ∈ index <;> simp [hold]
    · simp [hname]

theorem getElem?_index (assemblies : List AssemblyDef) (name : String) :
    (ofAssemblies assemblies).index[name]? =
      ((places assemblies).find? fun e => e.1 = name).map Prod.snd := by
  rw [ofAssemblies, getElem?_foldl]
  simp

theorem flatMap_fst_zipIdx {α β : Type} (l : List α) (f : α → List β) :
    (l.zipIdx.flatMap fun x => f x.1) = l.flatMap f := by
  rw [← List.flatMap_map, List.zipIdx_map_fst]

/-- The places list the definitions in order. -/
theorem map_at?_places (assemblies : List AssemblyDef) :
    (places assemblies).map (fun place => (place.1, (ofAssemblies assemblies).at? place.2)) =
      (ofAssemblies assemblies).definitions.map fun d => (d.fullName, some d) := by
  have htype : ∀ x ∈ assemblies.zipIdx, ∀ y ∈ x.1.types.zipIdx,
      (ofAssemblies assemblies).at? (x.2, y.2) = some y.1 := by
    intro x hx y hy
    rw [List.mem_zipIdx_iff_getElem?] at hx hy
    simp [at?, ofAssemblies, hx, hy]
  have hassembly : ∀ x ∈ assemblies.zipIdx,
      (x.1.types.zipIdx.map fun y => (y.1.fullName, (ofAssemblies assemblies).at? (x.2, y.2))) =
        x.1.types.map fun d => (d.fullName, some d) := by
    intro x hx
    calc _ = x.1.types.zipIdx.map ((fun d => (d.fullName, some d)) ∘ Prod.fst) :=
          List.map_congr_left fun y hy => by rw [htype x hx y hy]; rfl
      _ = _ := by rw [← List.map_map, List.zipIdx_map_fst]
  calc _ = assemblies.zipIdx.flatMap fun x => x.1.types.map fun d => (d.fullName, some d) := by
        rw [places, List.map_flatMap]
        refine List.flatMap_congr fun x hx => ?_
        rw [List.map_map]
        exact hassembly x hx
    _ = _ := by
        rw [flatMap_fst_zipIdx assemblies fun a => a.types.map fun d => (d.fullName, some d),
          definitions, List.map_flatMap]
        rfl

theorem typeDef_eq_find? (assemblies : List AssemblyDef) (name : String) :
    (ofAssemblies assemblies).typeDef name =
      (ofAssemblies assemblies).definitions.find? fun d => d.fullName = name := by
  have hplaces := congrArg (List.find? fun x => x.1 = name) (map_at?_places assemblies)
  rw [List.find?_map, List.find?_map] at hplaces
  calc (ofAssemblies assemblies).typeDef name
      = (((places assemblies).find? fun e => e.1 = name).map fun place =>
          (place.1, (ofAssemblies assemblies).at? place.2)).bind Prod.snd := by
        rw [typeDef, getElem?_index, Option.bind_map, Option.bind_map]
        rfl
    _ = (((ofAssemblies assemblies).definitions.find? fun d => d.fullName = name).map fun d =>
          (d.fullName, some d)).bind Prod.snd := congrArg (·.bind Prod.snd) hplaces
    _ = _ := by
        rw [Option.bind_map]
        exact Option.bind_fun_some _

theorem faithful_source (assemblies : List AssemblyDef) :
    (ofAssemblies assemblies).source.Faithful := by
  intro name d h
  have hfind := (typeDef_eq_find? assemblies name).symm.trans h
  exact of_decide_eq_true (List.find?_some hfind :)

theorem map_fst_places (assemblies : List AssemblyDef) :
    (places assemblies).map Prod.fst =
      (ofAssemblies assemblies).definitions.map TypeDef.fullName := by
  simpa [Function.comp_def] using congrArg (List.map Prod.fst) (map_at?_places assemblies)

theorem mem_index_iff {assemblies : List AssemblyDef} {name : String} :
    name ∈ (ofAssemblies assemblies).index ↔
      name ∈ (ofAssemblies assemblies).definitions.map TypeDef.fullName := by
  rw [Std.TreeMap.mem_iff_isSome_getElem?, getElem?_index, ← map_fst_places]
  simp [List.find?_isSome]

/-- The size of a set is the number of its distinct full names. -/
theorem size_eq_length_dedup (assemblies : List AssemblyDef) :
    (ofAssemblies assemblies).size =
      ((ofAssemblies assemblies).definitions.map TypeDef.fullName).dedup.length := by
  have hperm : (ofAssemblies assemblies).index.keys.Perm
      ((ofAssemblies assemblies).definitions.map TypeDef.fullName).dedup := by
    refine (List.perm_ext_iff_of_nodup Std.TreeMap.nodup_keys (List.nodup_dedup _)).mpr ?_
    intro name
    rw [Std.TreeMap.mem_keys, mem_index_iff, List.mem_dedup]
  rw [size, ← Std.TreeMap.length_keys, hperm.length_eq]

/-- A full name is known when some type of some assembly has it. -/
theorem typeDef_isSome_iff {assemblies : List AssemblyDef} {name : String} :
    ((ofAssemblies assemblies).typeDef name).isSome = true ↔
      ∃ a ∈ assemblies, ∃ d ∈ a.types, d.fullName = name := by
  rw [typeDef_eq_find?, List.find?_isSome]
  simp only [decide_eq_true_eq, definitions, ofAssemblies, List.mem_flatMap]
  constructor
  · rintro ⟨d, ⟨a, ha, hd⟩, hn⟩
    exact ⟨a, ha, d, hd, hn⟩
  · rintro ⟨a, ha, d, hd, hn⟩
    exact ⟨d, ⟨a, ha, hd⟩, hn⟩

theorem exported_isSome_iff {assemblies : List AssemblyDef} {name : String} :
    ((ofAssemblies assemblies).exported name).isSome = true ↔ ∃ a ∈ assemblies, a.name = name := by
  rw [exported, Option.isSome_map, assembly?, List.find?_isSome]
  simp only [decide_eq_true_eq, ofAssemblies]

theorem exported_subset {set : MetadataSet} {name : String} {e : Exports}
    (h : set.exported name = some e) : e.types ⊆ set.definitions := by
  obtain ⟨assembly, ha, rfl⟩ := Option.map_eq_some_iff.mp h
  intro d hd
  exact List.mem_flatMap.mpr ⟨assembly, List.mem_of_find?_eq_some ha, (List.mem_filter.mp hd).1⟩

end MetadataSet

end Typings
