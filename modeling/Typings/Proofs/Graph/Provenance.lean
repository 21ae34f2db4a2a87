import Mathlib.Data.List.Induction
import Typings.Proofs.Graph.Reachability

/-! # Which definition a name gets

Several definitions may share a full name, and only one of them is admitted. References and names
bring in what the source answers, which for a set is the first definition of the name. The exports
of an assembly come in as they stand, though: of those that share a name the first one that can be
admitted is taken, whatever the source answers for that name. So a name that a seed brings in new
gets the assembly's own definition if it exports one, and the source's answer if it does not.
-/
namespace Typings

namespace TypeDef

/-- The tests of admission for a definition that is offered with its own generic arguments. -/
def isAdmissible (d : TypeDef) : Bool :=
  d.fullName ≠ rootType && !d.isNested && !d.genericArgs.any TypeRef.isClosed

theorem isAdmissible_iff {d : TypeDef} : d.isAdmissible = true ↔ d.Admissible d.genericArgs := by
  have hclosed : (!d.genericArgs.any TypeRef.isClosed) = true ↔
      ∀ arg ∈ d.genericArgs ++ d.genericArgs, arg.isClosed = false := by
    simp
  rw [isAdmissible, Bool.and_eq_true, Bool.and_eq_true, hclosed]
  constructor
  · rintro ⟨⟨hroot, hnested⟩, hargs⟩
    exact ⟨of_decide_eq_true hroot, by simpa using hnested, hargs⟩
  · intro h
    exact ⟨⟨decide_eq_true h.not_root, by simp [h.not_nested]⟩, h.not_closed⟩

/-- The first definition of a name that can be admitted. -/
def candidate? (ds : List TypeDef) (name : String) : Option TypeDef :=
  ds.find? fun d => d.isAdmissible && d.fullName = name

theorem candidate?_eq_none_iff {ds : List TypeDef} {name : String} :
    candidate? ds name = none ↔ ∀ d ∈ ds, d.Admissible d.genericArgs → d.fullName ≠ name := by
  simp only [candidate?, List.find?_eq_none, Bool.and_eq_true, isAdmissible_iff,
    decide_eq_true_iff, not_and, ne_eq]

theorem candidate?_append (ds es : List TypeDef) (name : String) :
    candidate? (ds ++ es) name = (candidate? ds name).or (candidate? es name) :=
  List.find?_append

theorem candidate?_singleton {d : TypeDef} (h : d.Admissible d.genericArgs) :
    candidate? [d] d.fullName = some d := by
  simp [candidate?, isAdmissible_iff.mpr h]

theorem candidate?_spec {ds : List TypeDef} {name : String} {d : TypeDef}
    (h : candidate? ds name = some d) :
    d ∈ ds ∧ d.Admissible d.genericArgs ∧ d.fullName = name := by
  have hd := List.find?_some h
  rw [Bool.and_eq_true, isAdmissible_iff, decide_eq_true_iff] at hd
  exact ⟨List.mem_of_find?_eq_some h, hd⟩

end TypeDef

/-- The definition that a seed offers of itself under a full name: of the public exports of an
assembly the first that can be admitted. -/
def Seed.exported? (src : Source) (name : String) : Seed → Option TypeDef
  | .assembly a =>
    (src.exported a).bind fun e => TypeDef.candidate? (e.types.filter TypeDef.isPublic) name
  | .named _ | .reference _ => none

/-- The definition that a seed brings in under a full name. -/
def Seed.definition? (src : Source) (s : Seed) (name : String) : Option TypeDef :=
  (s.exported? src name).or (src.typeDef name)

variable {src : Source}

namespace Frontier

/-- Of the definitions that are offered one after the other, the first one of a name is admitted. -/
theorem candidate?_of_mem_foldl_offerDef (g : TypeGraph) (ds : List TypeDef) :
    ∀ d ∈ (ds.foldl (fun f d => f.offerDef d d.genericArgs) g.frontier).graph.definitions,
      d ∈ g.definitions ∨ TypeDef.candidate? ds d.fullName = some d := by
  induction ds using List.reverseRecOn with
  | nil => exact fun d hd => .inl hd
  | append_singleton ds d ih =>
    have hkeep : ∀ e, e ∈ g.definitions ∨ TypeDef.candidate? ds e.fullName = some e →
        e ∈ g.definitions ∨ TypeDef.candidate? (ds ++ [d]) e.fullName = some e := by
      intro e he
      refine he.imp_right fun he => ?_
      rw [TypeDef.candidate?_append, he]
      rfl
    rw [List.foldl_append, List.foldl_cons, List.foldl_nil]
    rcases offerDef_cases (ds.foldl (fun f d => f.offerDef d d.genericArgs) g.frontier) d
      d.genericArgs with ⟨ha, hnew, he⟩ | ⟨-, he⟩
    · rw [he]
      intro e hmem
      rcases TypeGraph.mem_definitions_insert.mp hmem with hmem | rfl
      · exact hkeep e (ih e hmem)
      · -- had an earlier one of this name been admissible, the name would be taken
        have hnone : TypeDef.candidate? ds e.fullName = none := by
          refine TypeDef.candidate?_eq_none_iff.mpr fun x hx hax hn => ?_
          rw [← hn, contains_foldl_offerDef hx hax] at hnew
          cases hnew
        refine .inr ?_
        rw [TypeDef.candidate?_append, hnone]
        exact TypeDef.candidate?_singleton ha
    · rw [he]
      exact fun e hmem => hkeep e (ih e hmem)

/-- A closure adds only what references admit, and only under names that are not there. -/
theorem admits_of_mem_close {f : Frontier} :
    ∀ d ∈ (f.close src).graph.definitions, d ∈ f.graph.definitions ∨
      f.graph.contains d.fullName = false ∧ ∃ ty, src.Admits ty d := by
  refine (close_induction (P := fun f' =>
    (∀ name, f.graph.contains name = true → f'.graph.contains name = true) ∧
      ∀ d ∈ f'.graph.definitions, d ∈ f.graph.definitions ∨
        f.graph.contains d.fullName = false ∧ ∃ ty, src.Admits ty d) ?_
    ⟨fun _ h => h, fun _ hd => .inl hd⟩).2
  intro g d pending hg
  refine foldl_offer_induction (P := fun f' =>
    (∀ name, f.graph.contains name = true → f'.graph.contains name = true) ∧
      ∀ d ∈ f'.graph.definitions, d ∈ f.graph.definitions ∨
        f.graph.contains d.fullName = false ∧ ∃ ty, src.Admits ty d) d.offers ?_ hg
  rintro f' ty - e he hnew ⟨hkeep, hf'⟩
  refine ⟨fun name hn => contains_enter (hkeep name hn), fun x hx => ?_⟩
  rcases TypeGraph.mem_definitions_insert.mp hx with hx | rfl
  · exact hf' x hx
  · refine .inr ⟨?_, ty, he⟩
    cases hold : f.graph.contains x.fullName with
    | false => rfl
    | true => rw [hkeep _ hold] at hnew; cases hnew

end Frontier

theorem Source.Faithful.typeDef_of_admits (hsrc : src.Faithful) {ty : TypeRef} {d : TypeDef}
    (h : src.Admits ty d) : src.typeDef d.fullName = some d := by
  obtain ⟨⟨name, -, -, hd⟩, -⟩ := h
  rw [hsrc hd]; exact hd

namespace TypeGraph

variable {g : TypeGraph}

theorem typeDef_of_mem_offerSeed {s : Seed} {f : Frontier} (hs : g.offerSeed src s = .ok f)
    (hoffers : ∀ d args, s.Offers src d args → src.typeDef d.fullName = some d) :
    ∀ d ∈ f.graph.definitions, d ∈ g.definitions ∨ src.typeDef d.fullName = some d := by
  refine offerSeed_induction (P := fun f => ∀ d ∈ f.graph.definitions,
    d ∈ g.definitions ∨ src.typeDef d.fullName = some d) ?_ (fun _ hd => .inl hd) hs
  intro f d args ho _ _ hf e he
  rcases mem_definitions_insert.mp he with he | rfl
  · exact hf e he
  · exact .inr (hoffers e args ho)

/-- Under a new name, a seed's offers bring in the assembly's own candidate, or the answer of the
source. -/
theorem definition?_of_mem_offerSeed (hsrc : src.Faithful) {s : Seed} {f : Frontier}
    (hs : g.offerSeed src s = .ok f) :
    ∀ d ∈ f.graph.definitions, d ∈ g.definitions ∨ s.definition? src d.fullName = some d := by
  cases s with
  | assembly name =>
    simp only [offerSeed] at hs
    split at hs
    · next e he =>
      cases hs
      intro d hd
      refine (Frontier.candidate?_of_mem_foldl_offerDef g _ d hd).imp_right fun hc => ?_
      rw [Seed.definition?, Seed.exported?, he, Option.bind_some, hc]
      rfl
    · cases hs
  | named fullName =>
    refine typeDef_of_mem_offerSeed hs fun d args ho => ?_
    obtain ⟨hd, -⟩ := ho
    exact hsrc hd ▸ hd
  | reference ty =>
    refine typeDef_of_mem_offerSeed hs fun d args ho => ?_
    obtain ⟨⟨name, -, -, hd⟩, -⟩ := ho
    exact hsrc hd ▸ hd

theorem brings_of_exported? {s : Seed} {name : String} {d : TypeDef}
    (h : s.exported? src name = some d) : s.Brings src d ∧ d.fullName = name := by
  cases s with
  | assembly a =>
    obtain ⟨e, he, hc⟩ := Option.bind_eq_some_iff.mp h
    obtain ⟨hd, ha, hn⟩ := TypeDef.candidate?_spec hc
    obtain ⟨hd, hp⟩ := List.mem_filter.mp hd
    exact ⟨⟨_, ⟨e, he, hd, hp, rfl⟩, ha⟩, hn⟩
  | named _ | reference _ => cases h

/-- What a seed brings in under a new name, itself or through the closure. -/
theorem definition?_of_mem_apply (hsrc : src.Faithful) (g : TypeGraph) (s : Seed) :
    ∀ d ∈ (g.apply src (.seed s)).definitions,
      d ∈ g.definitions ∨ s.definition? src d.fullName = some d := by
  intro d hd
  rcases g.apply_seed_cases src s with ⟨_, -, he⟩ | ⟨f, hs, he⟩
  · rw [he] at hd
    exact .inl hd
  · rw [he, definitions_linkBases] at hd
    rcases Frontier.admits_of_mem_close d hd with hd | ⟨hnew, ty, hadm⟩
    · exact definition?_of_mem_offerSeed hsrc hs d hd
    · -- a candidate of the assembly would have been there before the closure
      have hnone : s.exported? src d.fullName = none := by
        refine Option.eq_none_iff_forall_ne_some.mpr fun e hexp => ?_
        obtain ⟨hb, hn⟩ := brings_of_exported? hexp
        rw [← hn, contains_offerSeed hsrc hs hb] at hnew
        cases hnew
      refine .inr ?_
      rw [Seed.definition?, hnone]
      exact hsrc.typeDef_of_admits hadm

/-- Every definition is the one that some live seed brings in under its name. -/
theorem definition?_of_mem_applyAll (hsrc : src.Faithful) (ops : List Operation) :
    ∀ d ∈ (empty.applyAll src ops).definitions,
      ∃ s ∈ liveSeeds ops, s.definition? src d.fullName = some d := by
  induction ops using List.reverseRecOn with
  | nil => simp [applyAll]
  | append_singleton ops op ih =>
    intro d hd
    rw [applyAll, List.foldl_append, List.foldl_cons, List.foldl_nil] at hd
    rw [liveSeeds, List.foldl_append, List.foldl_cons, List.foldl_nil]
    cases op with
    | clear => cases hd
    | seed s =>
      rcases definition?_of_mem_apply hsrc _ s d hd with hd | hd
      · obtain ⟨t, ht, hd⟩ := ih d hd
        exact ⟨t, List.mem_cons_of_mem _ ht, hd⟩
      · exact ⟨s, List.mem_cons_self, hd⟩

/-- A set answers with the first definition of a name. A seed that brings in a new name brings in
that one too, unless it is an assembly that exports a definition of the name that can be admitted:
then it brings in the first such of its own. So whatever is in the graph is what some live seed has
for its name, and it is the first definition of that name wherever the live assemblies export no
other. -/
theorem first_definition_unless_exported (assemblies : List AssemblyDef) (ops : List Operation) :
    let set := MetadataSet.ofAssemblies assemblies
    let src := set.source
    let g := empty.applyAll src ops
    (∀ name, src.typeDef name = set.definitions.find? fun d => d.fullName = name) ∧
      (∀ s growth, g.seed src s = .ok growth → ∀ x ∈ growth.graph.descriptors,
        x.fullName ∉ g.fullNames →
          some x.definition = (s.exported? src x.fullName).or (src.typeDef x.fullName)) ∧
      (∀ x ∈ g.descriptors, ∃ s ∈ liveSeeds ops,
        some x.definition = (s.exported? src x.fullName).or (src.typeDef x.fullName)) ∧
      ∀ x ∈ g.descriptors,
        (∀ s ∈ liveSeeds ops, ∀ d, s.exported? src x.fullName = some d →
          src.typeDef x.fullName = some d) →
        src.typeDef x.fullName = some x.definition := by
  intro set src g
  have hsrc : src.Faithful := MetadataSet.faithful_source assemblies
  have hg : g.Linked := linked_applyAll src ops
  have hlive : ∀ x ∈ g.descriptors, ∃ s ∈ liveSeeds ops,
      some x.definition = (s.exported? src x.fullName).or (src.typeDef x.fullName) := by
    intro x hx
    obtain ⟨s, hs, hd⟩ :=
      definition?_of_mem_applyAll hsrc ops _ (mem_definitions_iff.mpr ⟨x, hx, rfl⟩)
    rw [← hg.fullName_eq x hx] at hd
    exact ⟨s, hs, hd.symm⟩
  refine ⟨MetadataSet.typeDef_eq_find? assemblies, ?_, hlive, ?_⟩
  · intro s growth hs x hx hnew
    have happly : growth.graph = g.apply src (.seed s) := by rw [apply, hs]
    have hlinked : growth.graph.Linked := happly ▸ hg.apply (.seed s)
    have hmem : x.definition ∈ (g.apply src (.seed s)).definitions :=
      happly ▸ mem_definitions_iff.mpr ⟨x, hx, rfl⟩
    rw [hlinked.fullName_eq x hx] at hnew ⊢
    rcases definition?_of_mem_apply hsrc g s _ hmem with hold | hd
    · rw [hg.mem_fullNames_iff, hg.contains_iff_mem] at hnew
      exact absurd ⟨_, hold, rfl⟩ hnew
    · exact hd.symm
  · intro x hx hall
    obtain ⟨s, hs, hd⟩ := hlive x hx
    cases he : s.exported? src x.fullName with
    | none => rw [hd, he]; rfl
    | some d => rw [hd, he, hall s hs d he]; rfl

/-- An assembly brings in its own definition of a name that another one defines before it. -/
theorem exports_beat_first_definition :
    let first : TypeDef := { space := "N", name := "X" }
    let second : TypeDef := { space := "N", name := "X", isAbstract := true }
    let set := MetadataSet.ofAssemblies
      [{ name := "A", types := [first] }, { name := "B", types := [second] }]
    let g := empty.applyAll set.source [.seed (.assembly "B")]
    ¬ ∀ x ∈ g.descriptors, set.source.typeDef x.fullName = some x.definition := by
  intro first second set g hall
  have hsrc : set.source.Faithful := MetadataSet.faithful_source _
  have h : g.GrownFrom set.source [.assembly "B"] :=
    grownFrom_applyAll hsrc [.seed (.assembly "B")]
  have hname : g.contains "N.X" = true := by
    refine h.seeded _ List.mem_cons_self second ?_
    exact ⟨_, ⟨_, rfl, List.mem_cons_self, rfl, rfl⟩, by decide, by decide, by decide⟩
  obtain ⟨x, hx, hn⟩ := h.contains_iff.mp hname
  obtain ⟨s, hs, hd⟩ := definition?_of_mem_applyAll hsrc [.seed (.assembly "B")] _
    (mem_definitions_iff.mpr ⟨x, hx, rfl⟩)
  cases List.mem_singleton.mp hs
  have hfirst := hall x hx
  rw [hn] at hfirst
  rw [← h.fullName_eq x hx, hn] at hd
  have habstract : ((Seed.assembly "B").definition? set.source "N.X").map TypeDef.isAbstract =
      (set.source.typeDef "N.X").map TypeDef.isAbstract := by rw [hd, hfirst]
  revert habstract
  decide +kernel

end TypeGraph

end Typings
