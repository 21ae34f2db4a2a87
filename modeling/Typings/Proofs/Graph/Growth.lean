import Typings.Seeding

/-! # How a graph grows

Every definition enters a graph by one step, `Frontier.enter`: its descriptor is appended and it is
put in front of the pending ones. An offer is that step or nothing (`offerDef_cases`,
`offer_cases`), so a property that survives the step survives an expansion, a closure and a seed.
The induction principles here say so once; no later proof opens the loop again.
-/
namespace Typings

namespace TypeDef

/-- The tests of admission that do not look at the graph. -/
structure Admissible (d : TypeDef) (args : List TypeRef) : Prop where
  not_root : d.fullName ≠ rootType
  not_nested : d.isNested = false
  not_closed : ∀ arg ∈ args ++ d.genericArgs, arg.isClosed = false

/-- A reference stands in the signature of a public method, or is the base. -/
def Mentions (d : TypeDef) (ty : TypeRef) : Prop :=
  (∃ m ∈ d.methods, m.isPublic = true ∧ (ty = m.returns ∨ ∃ p ∈ m.params, ty = p.type)) ∨
    d.base = some ty

theorem mem_surface {d : TypeDef} {ty : TypeRef} :
    ty ∈ d.surface ↔
      ∃ m ∈ d.methods, m.isPublic = true ∧ (ty = m.returns ∨ ∃ p ∈ m.params, ty = p.type) := by
  simp only [surface, List.mem_flatMap, List.mem_filter, List.mem_cons, List.mem_map, and_assoc,
    eq_comm (b := ty)]

theorem mentions_of_mem_offers {d : TypeDef} {ty : TypeRef} (h : ty ∈ d.offers) :
    d.Mentions ty := by
  rcases List.mem_append.mp h with h | h
  · exact .inl (mem_surface.mp (List.mem_filter.mp h).1)
  · exact .inr (by simpa [eq_comm] using h)

/-- What a definition mentions is offered, unless it names the definition itself. -/
theorem Mentions.mem_offers {d : TypeDef} {ty : TypeRef} (h : d.Mentions ty) :
    ty.name? = some d.fullName ∨ ty ∈ d.offers := by
  by_cases hself : ty.name? = some d.fullName
  · exact .inl hself
  · refine .inr (List.mem_append.mpr ?_)
    rcases h with h | h
    · exact .inl (List.mem_filter.mpr ⟨mem_surface.mpr h, by simpa using hself⟩)
    · exact .inr (by simp [h])

end TypeDef

/-- A reference names a type other than the root, and the source answers with a definition. -/
def Source.Resolves (src : Source) (ty : TypeRef) (d : TypeDef) : Prop :=
  ∃ name, ty.name? = some name ∧ name ≠ rootType ∧ src.typeDef name = some d

/-- A reference brings a definition into a graph that has neither its name nor the other's. -/
def Source.Admits (src : Source) (ty : TypeRef) (d : TypeDef) : Prop :=
  src.Resolves ty d ∧ d.Admissible ty.args

namespace TypeGraph

theorem rejection?_eq_none_iff {g : TypeGraph} {d : TypeDef} {args : List TypeRef} :
    g.rejection? d args = none ↔ d.Admissible args ∧ g.contains d.fullName = false := by
  have hclosed : (args ++ d.genericArgs).any TypeRef.isClosed = false ↔
      ∀ arg ∈ args ++ d.genericArgs, arg.isClosed = false := by
    simp only [List.any_eq_false, Bool.not_eq_true]
  unfold rejection?
  constructor
  · intro h
    split at h <;> try contradiction
    split at h <;> try contradiction
    split at h <;> try contradiction
    split at h <;> try contradiction
    next hr hc hn ha =>
    exact ⟨⟨hr, by simpa using hn, hclosed.mp (by simpa using ha)⟩, by simpa using hc⟩
  · rintro ⟨ha, hc⟩
    rw [if_neg ha.not_root, hc, ha.not_nested, hclosed.mpr ha.not_closed]
    rfl

theorem rejection?_eq_alreadyPresent_iff {g : TypeGraph} {d : TypeDef} {args : List TypeRef} :
    g.rejection? d args = some .alreadyPresent ↔
      d.fullName ≠ rootType ∧ g.contains d.fullName = true := by
  unfold rejection?
  by_cases hroot : d.fullName = rootType
  · simp [hroot]
  · by_cases hpresent : g.contains d.fullName = true
    · simp [hroot, hpresent]
    · rw [if_neg hroot, if_neg hpresent]
      split <;> simp [hpresent]

theorem rejection?_eq_closedGeneric_iff {g : TypeGraph} {d : TypeDef} {args : List TypeRef} :
    g.rejection? d args = some .closedGeneric ↔
      d.fullName ≠ rootType ∧ g.contains d.fullName = false ∧ d.isNested = false ∧
        (args ++ d.genericArgs).any TypeRef.isClosed = true := by
  unfold rejection?
  by_cases hroot : d.fullName = rootType
  · simp [hroot]
  · by_cases hpresent : g.contains d.fullName = true
    · simp [hroot, hpresent]
    · by_cases hnested : d.isNested = true
      · simp [hroot, hpresent, hnested]
      · rw [if_neg hroot, if_neg hpresent, if_neg hnested, Option.ite_none_right_eq_some]
        simp [hroot, hpresent, hnested]

/-- A reference whose own name is new resolves to what the source answers. -/
theorem resolve_eq_ok_iff {g : TypeGraph} {src : Source} {ty : TypeRef} {d : TypeDef} :
    g.resolve src ty = .ok d ↔
      src.Resolves ty d ∧ ∀ name, ty.name? = some name → g.contains name = false := by
  constructor
  · intro h
    unfold resolve at h
    split at h <;> try contradiction
    next name args =>
    split at h <;> try contradiction
    split at h <;> try contradiction
    next hr hc =>
    split at h <;> try contradiction
    next e he =>
    cases h
    refine ⟨⟨name, rfl, hr, he⟩, fun n hn => ?_⟩
    cases hn
    simpa using hc
  · rintro ⟨⟨name, hname, hroot, hd⟩, hnew⟩
    cases ty with
    | named n args =>
      cases hname
      rw [resolve, if_neg hroot, hnew _ rfl]
      simp [hd]
    | param _ | array _ _ | byRef _ | pointer _ => cases hname

end TypeGraph

namespace Frontier

/-- The step that brings a definition in. -/
def enter (f : Frontier) (d : TypeDef) : Frontier := ⟨f.graph.insert d, d :: f.pending⟩

@[simp] theorem graph_enter (f : Frontier) (d : TypeDef) :
    (f.enter d).graph = f.graph.insert d := rfl

@[simp] theorem pending_enter (f : Frontier) (d : TypeDef) :
    (f.enter d).pending = d :: f.pending := rfl

/-- Offering a definition admits it, or finds it inadmissible or already there. -/
theorem offerDef_cases (f : Frontier) (d : TypeDef) (args : List TypeRef) :
    (d.Admissible args ∧ f.graph.contains d.fullName = false ∧ f.offerDef d args = f.enter d) ∨
      ((d.Admissible args → f.graph.contains d.fullName = true) ∧ f.offerDef d args = f) := by
  unfold offerDef
  split
  · next h =>
    obtain ⟨ha, hc⟩ := TypeGraph.rejection?_eq_none_iff.mp h
    exact .inl ⟨ha, hc, rfl⟩
  · next r h =>
    refine .inr ⟨fun ha => ?_, rfl⟩
    cases hc : f.graph.contains d.fullName with
    | true => rfl
    | false => rw [TypeGraph.rejection?_eq_none_iff.mpr ⟨ha, hc⟩] at h; cases h

/-- Offering a reference admits a definition that the reference admits, or changes nothing because
there is none or one of the two names is taken. -/
theorem offer_cases (src : Source) (f : Frontier) (ty : TypeRef) :
    (∃ d, src.Admits ty d ∧ f.graph.contains d.fullName = false ∧ offer src f ty = f.enter d) ∨
      ((∀ d, src.Admits ty d → f.graph.contains d.fullName = true ∨
        ∃ name, ty.name? = some name ∧ f.graph.contains name = true) ∧ offer src f ty = f) := by
  unfold offer
  split
  · next d hr =>
    obtain ⟨hres, -⟩ := TypeGraph.resolve_eq_ok_iff.mp hr
    rcases offerDef_cases f d ty.args with ⟨ha, hc, he⟩ | ⟨hc, he⟩
    · exact .inl ⟨d, ⟨hres, ha⟩, hc, he⟩
    · refine .inr ⟨fun e hadm => .inl ?_, he⟩
      obtain ⟨name, hname, -, hd⟩ := hres
      obtain ⟨⟨name', hname', -, he'⟩, ha⟩ := hadm
      cases hname.symm.trans hname'
      cases hd.symm.trans he'
      exact hc ha
  · next r hr =>
    refine .inr ⟨fun d hadm => .inr ?_, rfl⟩
    obtain ⟨name, hname, -, -⟩ := hadm.1
    cases hc : f.graph.contains name with
    | true => exact ⟨name, hname, hc⟩
    | false =>
      have hok := TypeGraph.resolve_eq_ok_iff.mpr
        ⟨hadm.1, fun n hn => by cases hname.symm.trans hn; exact hc⟩
      rw [hok] at hr; cases hr

/-! ## Induction along offers, an expansion and a closure -/

/-- What each admission through one of the references keeps holds after all of them are offered. -/
theorem foldl_offer_induction {src : Source} {P : Frontier → Prop} (tys : List TypeRef)
    (step : ∀ f, ∀ ty ∈ tys, ∀ d, src.Admits ty d → f.graph.contains d.fullName = false →
      P f → P (f.enter d)) {f : Frontier} (hf : P f) : P (tys.foldl (offer src) f) := by
  refine List.foldlRecOn tys (offer src) hf fun f hf ty hty => ?_
  rcases offer_cases src f ty with ⟨d, ha, hc, he⟩ | ⟨-, he⟩
  · rw [he]; exact step f ty hty d ha hc hf
  · rw [he]; exact hf

theorem close_nil (src : Source) (g : TypeGraph) : close src ⟨g, []⟩ = ⟨g, []⟩ := by
  rw [close]

theorem close_cons (src : Source) (g : TypeGraph) (d : TypeDef) (pending : List TypeDef) :
    close src ⟨g, d :: pending⟩ =
      { close src (expand src ⟨g, pending⟩ d) with
        expanded := d :: (close src (expand src ⟨g, pending⟩ d)).expanded } := by
  rw [close]

/-- What every turn of the loop keeps holds of the graph it ends in, with nothing pending. -/
theorem close_induction {src : Source} {P : Frontier → Prop}
    (step : ∀ g d pending, P ⟨g, d :: pending⟩ → P (expand src ⟨g, pending⟩ d))
    {f : Frontier} (hf : P f) : P ⟨(f.close src).graph, []⟩ := by
  induction f using close.induct src with
  | case1 f hp =>
    obtain ⟨g, pending⟩ := f
    cases hp
    rw [close_nil]; exact hf
  | case2 f d pending hp ih =>
    obtain ⟨g, pending'⟩ := f
    cases hp
    rw [close_cons]
    exact ih (step g d pending hf)

end Frontier

/-! ## Seeds and operations -/

/-- A seed offers a definition directly, reached with the given generic arguments. -/
def Seed.Offers (src : Source) (d : TypeDef) (args : List TypeRef) : Seed → Prop
  | .assembly name => ∃ e, src.exported name = some e ∧ d ∈ e.types ∧ d.isPublic = true ∧
      args = d.genericArgs
  | .named fullName => src.typeDef fullName = some d ∧ args = d.genericArgs
  | .reference ty => src.Resolves ty d ∧ args = ty.args

namespace TypeGraph

theorem offerExports_induction {P : Frontier → Prop} (g : TypeGraph) (types : List TypeDef)
    (step : ∀ f, ∀ d ∈ types, d.isPublic = true → d.Admissible d.genericArgs →
      f.graph.contains d.fullName = false → P f → P (f.enter d))
    (hg : P g.frontier) : P (g.offerExports types) := by
  refine List.foldlRecOn _ _ hg fun f hf d hd => ?_
  obtain ⟨hd, hpub⟩ := List.mem_filter.mp hd
  rcases f.offerDef_cases d d.genericArgs with ⟨ha, hc, he⟩ | ⟨-, he⟩
  · rw [he]; exact step f d hd hpub ha hc hf
  · rw [he]; exact hf

/-- What each admission of an offered definition keeps holds once a seed has made its offers. -/
theorem offerSeed_induction {src : Source} {g : TypeGraph} {s : Seed} {P : Frontier → Prop}
    (step : ∀ f d args, s.Offers src d args → d.Admissible args →
      f.graph.contains d.fullName = false → P f → P (f.enter d))
    (hg : P g.frontier) {f : Frontier} (h : g.offerSeed src s = .ok f) : P f := by
  cases s with
  | assembly name =>
    simp only [offerSeed] at h
    split at h
    · next e he =>
      cases h
      exact offerExports_induction g e.types
        (fun f d hd hp ha => step f d d.genericArgs ⟨e, he, hd, hp, rfl⟩ ha) hg
    · cases h
  | named fullName =>
    simp only [offerSeed] at h
    split at h
    · next d hd =>
      cases h
      rcases g.frontier.offerDef_cases d d.genericArgs with ⟨ha, hc, he⟩ | ⟨-, he⟩
      · rw [he]; exact step _ d _ ⟨hd, rfl⟩ ha hc hg
      · rw [he]; exact hg
    · cases h
  | reference ty =>
    cases h
    rcases Frontier.offer_cases src g.frontier ty with ⟨d, ha, hc, he⟩ | ⟨-, he⟩
    · rw [he]; exact step _ d _ ⟨ha.1, rfl⟩ ha.2 hc hg
    · rw [he]; exact hg

/-- A seed that fails offers nothing. -/
theorem not_offers_of_error {src : Source} {g : TypeGraph} {s : Seed} {unknown : UnknownSeed}
    (h : g.offerSeed src s = .error unknown) (d : TypeDef) (args : List TypeRef) :
    ¬ s.Offers src d args := by
  cases s with
  | assembly name =>
    rintro ⟨e, he, -⟩
    simp [offerSeed, he] at h
  | named fullName =>
    rintro ⟨hd, -⟩
    simp [offerSeed, hd] at h
  | reference ty => cases h

/-- A seed fails and leaves the graph as it is, or its offers are closed and the bases linked. -/
theorem apply_seed_cases (src : Source) (g : TypeGraph) (s : Seed) :
    (∃ unknown, g.offerSeed src s = .error unknown ∧ g.apply src (.seed s) = g) ∨
      ∃ f, g.offerSeed src s = .ok f ∧
        g.apply src (.seed s) = (f.close src).graph.linkBases := by
  simp only [apply, seed]
  cases h : g.offerSeed src s with
  | error unknown => exact .inl ⟨unknown, rfl, rfl⟩
  | ok f => exact .inr ⟨f, rfl, rfl⟩

/-- A property of graphs that each admission and linking keep holds after a seed. -/
theorem apply_seed_induction {src : Source} {P : TypeGraph → Prop}
    (insert : ∀ g d args, d.Admissible args → g.contains d.fullName = false → P g → P (g.insert d))
    (link : ∀ g, P g → P g.linkBases) {g : TypeGraph} (hg : P g) (s : Seed) :
    P (g.apply src (.seed s)) := by
  rcases g.apply_seed_cases src s with ⟨_, -, he⟩ | ⟨f, hs, he⟩
  · rw [he]; exact hg
  · have hoffers : P f.graph := offerSeed_induction (P := fun f => P f.graph)
      (fun f d args _ ha hc hf => insert f.graph d args ha hc hf) hg hs
    rw [he]
    refine link _ (Frontier.close_induction (P := fun f => P f.graph) ?_ hoffers)
    intro g d pending hg
    exact Frontier.foldl_offer_induction (P := fun f => P f.graph) d.offers
      (fun f ty _ e ha hc hf => insert f.graph e ty.args ha.2 hc hf) (f := ⟨g, pending⟩) hg

end TypeGraph

end Typings
