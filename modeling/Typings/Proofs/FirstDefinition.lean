import Typings.Proofs.NameIndex
import Typings.Proofs.SeedChoice

/-! # The first definition of a name

A set keeps for each full name the place of a definition, found when the assemblies are gone through
in order. Places are gone through in strictly increasing order, so the place that is kept is the
least one that has a definition of the name, and it always has one.
-/
namespace Typings.MetadataSet

/-- A definition stands at a place: the index of an assembly, and its own index there. -/
def DefinedAt (assemblies : List AssemblyDef) (place : Nat × Nat) (d : TypeDef) : Prop :=
  ∃ assembly, assemblies[place.1]? = some assembly ∧ assembly.types[place.2]? = some d

/-- The order of places: by assemblies, and in an assembly by types. -/
abbrev Before : Nat × Nat → Nat × Nat → Prop := Prod.Lex (· < ·) (· < ·)

/-- The place of the first definition of a name. -/
structure FirstOf (assemblies : List AssemblyDef) (name : String) (place : Nat × Nat)
    (d : TypeDef) : Prop where
  defined : DefinedAt assemblies place d
  fullName_eq : d.fullName = name
  first : ∀ other e, DefinedAt assemblies other e → e.fullName = name →
    other = place ∨ Before place other

variable {assemblies : List AssemblyDef} {name : String} {place : Nat × Nat} {d e : TypeDef}

theorem at?_eq_some_iff :
    (ofAssemblies assemblies).at? place = some d ↔ DefinedAt assemblies place d :=
  Option.bind_eq_some_iff

theorem DefinedAt.unique (hd : DefinedAt assemblies place d) (he : DefinedAt assemblies place e) :
    d = e :=
  Option.some.inj ((at?_eq_some_iff.mpr hd).symm.trans (at?_eq_some_iff.mpr he))

theorem mem_places_iff :
    (name, place) ∈ places assemblies ↔ ∃ d, DefinedAt assemblies place d ∧ d.fullName = name := by
  obtain ⟨a, t⟩ := place
  simp only [places, List.mem_flatMap, List.mem_map, Prod.exists, Prod.mk.injEq,
    List.mem_zipIdx_iff_getElem?]
  constructor
  · rintro ⟨assembly, _, ha, d, _, ht, hname, rfl, rfl⟩
    exact ⟨d, ⟨assembly, ha, ht⟩, hname⟩
  · rintro ⟨d, ⟨assembly, ha, ht⟩, hname⟩
    exact ⟨assembly, a, ha, d, t, ht, hname, rfl, rfl⟩

/-- What is numbered comes in the order of its numbers. -/
theorem pairwise_zipIdx {α : Type} (l : List α) : l.zipIdx.Pairwise fun x y => x.2 < y.2 := by
  refine List.pairwise_map.mp ?_
  rw [List.zipIdx_map_snd]
  exact List.pairwise_lt_range'

theorem pairwise_places (assemblies : List AssemblyDef) :
    (places assemblies).Pairwise fun x y => Before x.2 y.2 := by
  rw [places, List.pairwise_flatMap]
  constructor
  · intro x _
    rw [List.pairwise_map]
    refine (pairwise_zipIdx x.1.types).imp fun {y z} h => ?_
    show Before (x.2, y.2) (x.2, z.2)
    exact Prod.Lex.right _ h
  · refine (pairwise_zipIdx assemblies).imp fun {x y} hxy p hp q hq => ?_
    obtain ⟨_, -, rfl⟩ := List.mem_map.mp hp
    obtain ⟨_, -, rfl⟩ := List.mem_map.mp hq
    exact Prod.Lex.left _ _ hxy

/-- In a list that is strictly in order, the first element of a kind is the least one. -/
theorem find?_eq_some_iff_least {α : Type} {R : α → α → Prop} (hasymm : ∀ a b, R a b → ¬ R b a)
    {l : List α} (hl : l.Pairwise R) {p : α → Bool} {x : α} :
    l.find? p = some x ↔ x ∈ l ∧ p x = true ∧ ∀ y ∈ l, p y = true → y = x ∨ R x y := by
  induction hl with
  | nil => simp
  | @cons a l ha _ ih =>
    rw [List.find?_cons]
    cases hp : p a with
    | true =>
      constructor
      · intro h
        cases h
        refine ⟨List.mem_cons_self, hp, fun y hy _ => ?_⟩
        exact (List.mem_cons.mp hy).imp_right (ha y)
      · rintro ⟨hx, -, hleast⟩
        rcases hleast a List.mem_cons_self hp with rfl | hxa
        · rfl
        · rcases List.mem_cons.mp hx with rfl | hx
          · rfl
          · exact absurd hxa (hasymm _ _ (ha x hx))
    | false =>
      have hne : ∀ {y}, p y = true → y ≠ a := by
        rintro y hy rfl
        rw [hp] at hy
        cases hy
      refine ih.trans ⟨?_, ?_⟩
      · rintro ⟨hx, hpx, hleast⟩
        refine ⟨List.mem_cons_of_mem a hx, hpx, fun y hy hpy => ?_⟩
        exact hleast y ((List.mem_cons.mp hy).resolve_left (hne hpy)) hpy
      · rintro ⟨hx, hpx, hleast⟩
        refine ⟨(List.mem_cons.mp hx).resolve_left (hne hpx), hpx, fun y hy hpy => ?_⟩
        exact hleast y (List.mem_cons_of_mem a hy) hpy

theorem Before.asymm {p q : Nat × Nat} (h : Before p q) : ¬ Before q p := by
  intro h'
  cases h with
  | left _ _ h => cases h' with
    | left _ _ h' => omega
    | right _ _ => omega
  | right _ h => cases h' with
    | left _ _ h' => omega
    | right _ h' => omega

/-- The index has the place of the first definition of each name, and nothing else. -/
theorem getElem?_index_eq_some_iff :
    (ofAssemblies assemblies).index[name]? = some place ↔
      ∃ d, FirstOf assemblies name place d := by
  rw [getElem?_index, Option.map_eq_some_iff]
  constructor
  · rintro ⟨⟨n, p⟩, hfind, rfl⟩
    obtain ⟨hmem, hname, hleast⟩ :=
      (find?_eq_some_iff_least (fun _ _ => Before.asymm) (pairwise_places assemblies)).mp hfind
    obtain rfl : n = name := of_decide_eq_true hname
    obtain ⟨d, hd, hdn⟩ := mem_places_iff.mp hmem
    refine ⟨d, hd, hdn, fun other e he hen => ?_⟩
    have hother := hleast (n, other) (mem_places_iff.mpr ⟨e, he, hen⟩) hname
    exact hother.imp_left (congrArg Prod.snd)
  · rintro ⟨d, hd⟩
    refine ⟨(name, place), ?_, rfl⟩
    refine (find?_eq_some_iff_least (fun _ _ => Before.asymm) (pairwise_places assemblies)).mpr
      ⟨mem_places_iff.mpr ⟨d, hd.defined, hd.fullName_eq⟩, decide_eq_true rfl, ?_⟩
    rintro ⟨n, other⟩ hother hn
    obtain rfl : n = name := of_decide_eq_true hn
    obtain ⟨e, he, hen⟩ := mem_places_iff.mp hother
    exact (hd.first other e he hen).imp_left (congrArg (n, ·))

theorem typeDef_eq_some_iff :
    (ofAssemblies assemblies).typeDef name = some d ↔
      ∃ place, FirstOf assemblies name place d := by
  rw [typeDef, Option.bind_eq_some_iff]
  simp only [getElem?_index_eq_some_iff, at?_eq_some_iff]
  constructor
  · rintro ⟨place, ⟨e, he⟩, hd⟩
    rw [hd.unique he.defined]
    exact ⟨place, he⟩
  · rintro ⟨place, hd⟩
    exact ⟨place, ⟨d, hd⟩, hd.defined⟩

theorem isEmpty_iff :
    (ofAssemblies assemblies).isEmpty = true ↔ ∀ a ∈ assemblies, a.types = [] := by
  have hsize : (ofAssemblies assemblies).isEmpty = ((ofAssemblies assemblies).size == 0) :=
    Std.TreeMap.isEmpty_eq_size_eq_zero
  rw [hsize, beq_iff_eq, size_eq_length_dedup, List.length_eq_zero_iff, List.dedup_eq_nil,
    List.map_eq_nil_iff, definitions, List.flatMap_eq_nil_iff]
  rfl

/-- What an assembly exports, for the first one of its name. -/
theorem exported_eq_some_iff {e : Exports} :
    (ofAssemblies assemblies).exported name = some e ↔
      ∃ (i : Nat) (a : AssemblyDef), assemblies[i]? = some a ∧ a.name = name ∧
        (∀ j < i, ∀ b, assemblies[j]? = some b → b.name ≠ name) ∧
        e = ⟨a.types.filter fun d => d.isPublic && !d.isNested, a.loadFailures⟩ := by
  rw [exported, Option.map_eq_some_iff]
  constructor
  · rintro ⟨a, ha, rfl⟩
    obtain ⟨hname, i, hi, hai, hbefore⟩ := List.find?_eq_some_iff_getElem.mp ha
    refine ⟨i, a, List.getElem?_eq_some_iff.mpr ⟨hi, hai⟩, of_decide_eq_true hname, ?_, rfl⟩
    intro j hj b hb
    obtain ⟨hj', rfl⟩ := List.getElem?_eq_some_iff.mp hb
    have hne := hbefore j hj
    rwa [Bool.not_eq_true', decide_eq_false_iff_not] at hne
  · rintro ⟨i, a, ha, rfl, hbefore, rfl⟩
    exact ⟨a, assembly?_eq_some_of_first ha hbefore, rfl⟩

/-- A set finds by a full name the first definition that has it, in the order of the assemblies and
then of their types, and finds one whenever there is one; the places it keeps are those of these
definitions. Its size is the number of distinct full names, and it is empty when no assembly has a
type. It knows what an assembly exports when there is one of the name: the public types of the first
such one that are not nested, in order, whose full names it all knows. -/
theorem index_exact (assemblies : List AssemblyDef) :
    let set := ofAssemblies assemblies
    (∀ name d, set.typeDef name = some d ↔ ∃ place, FirstOf assemblies name place d) ∧
      (∀ name, (set.typeDef name).isSome = true ↔
        ∃ a ∈ assemblies, ∃ d ∈ a.types, d.fullName = name) ∧
      (∀ name place, set.index[name]? = some place ↔ ∃ d, FirstOf assemblies name place d) ∧
      set.size = ((assemblies.flatMap AssemblyDef.types).map TypeDef.fullName).dedup.length ∧
      (set.isEmpty = true ↔ ∀ a ∈ assemblies, a.types = []) ∧
      ∀ name, ((set.exported name).isSome = true ↔ ∃ a ∈ assemblies, a.name = name) ∧
        ∀ e, (set.exported name = some e ↔
          ∃ (i : Nat) (a : AssemblyDef), assemblies[i]? = some a ∧ a.name = name ∧
            (∀ j < i, ∀ b, assemblies[j]? = some b → b.name ≠ name) ∧
            e = ⟨a.types.filter fun d => d.isPublic && !d.isNested, a.loadFailures⟩) ∧
          (set.exported name = some e → ∀ d ∈ e.types,
            (set.typeDef d.fullName).isSome = true) := by
  intro set
  refine ⟨fun name d => typeDef_eq_some_iff, fun name => typeDef_isSome_iff,
    fun name place => getElem?_index_eq_some_iff, size_eq_length_dedup assemblies, isEmpty_iff, ?_⟩
  intro name
  refine ⟨exported_isSome_iff, fun e => ⟨exported_eq_some_iff, fun he d hd => ?_⟩⟩
  obtain ⟨a, ha, hda⟩ := List.mem_flatMap.mp (exported_subset he hd)
  exact typeDef_isSome_iff.mpr ⟨a, ha, d, hda, rfl⟩

end Typings.MetadataSet
