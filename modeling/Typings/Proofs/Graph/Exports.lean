import Typings.Declaration.Layout
import Typings.Proofs.Graph.Growth

/-! # Exports that nobody else can see

A source may list more of an assembly than others can see. Offers of such definitions change
nothing: the ones that are not public are passed over, and the nested ones are refused whatever the
graph holds. So two sources that differ in nothing else answer every seed alike, and a whole run
over the one is the run over the other, step by step.
-/
namespace Typings

/-- A definition that others can see: public and not nested. -/
def TypeDef.isVisible (d : TypeDef) : Bool := d.isPublic && !d.isNested

/-- Visible definitions, and the same ones in order with others put in between. -/
inductive Padded : List TypeDef → List TypeDef → Prop where
  | nil : Padded [] []
  | keep {d : TypeDef} {ds es : List TypeDef} (hd : d.isVisible = true) (h : Padded ds es) :
      Padded (d :: ds) (d :: es)
  | insert {d : TypeDef} {ds es : List TypeDef} (hd : d.isPublic = false ∨ d.isNested = true)
      (h : Padded ds es) : Padded ds (d :: es)

theorem padded_filter_isVisible (ds : List TypeDef) : Padded (ds.filter TypeDef.isVisible) ds := by
  induction ds with
  | nil => exact .nil
  | cons d ds ih =>
    cases hd : d.isVisible with
    | true =>
      rw [List.filter_cons_of_pos hd]
      exact .keep hd ih
    | false =>
      rw [List.filter_cons_of_neg (by simp [hd])]
      rw [TypeDef.isVisible, Bool.and_eq_false_iff, Bool.not_eq_false'] at hd
      exact .insert hd ih

/-- Two sources that answer every look-up alike and know the same assemblies. What the second one
exports of an assembly is what the first one exports, padded. -/
structure Source.PaddedBy (src₁ src₂ : Source) : Prop where
  typeDef_eq : src₁.typeDef = src₂.typeDef
  exported : ∀ name, Option.Rel (fun e₁ e₂ => Padded e₁.types e₂.types)
    (src₁.exported name) (src₂.exported name)

variable {src₁ src₂ : Source} {g : TypeGraph}

namespace Frontier

theorem offerDef_of_isNested {d : TypeDef} (hd : d.isNested = true) (f : Frontier)
    (args : List TypeRef) : f.offerDef d args = f := by
  rcases f.offerDef_cases d args with ⟨ha, -, -⟩ | ⟨-, he⟩
  · rw [ha.not_nested] at hd; cases hd
  · exact he

/-- The padding is filtered out or refused, wherever it stands. -/
theorem foldl_offerDef_padded {ds es : List TypeDef} (h : Padded ds es) (f : Frontier) :
    (es.filter TypeDef.isPublic).foldl (fun f d => f.offerDef d d.genericArgs) f =
      (ds.filter TypeDef.isPublic).foldl (fun f d => f.offerDef d d.genericArgs) f := by
  induction h generalizing f with
  | nil => rfl
  | @keep d ds es hd _ ih =>
    have hpublic : d.isPublic = true := (Bool.and_eq_true_iff.mp hd).1
    rw [List.filter_cons_of_pos hpublic, List.filter_cons_of_pos hpublic, List.foldl_cons,
      List.foldl_cons, ih]
  | @insert d ds es hd _ ih =>
    cases hpublic : d.isPublic with
    | false => rw [List.filter_cons_of_neg (by simp [hpublic]), ih]
    | true =>
      have hnested : d.isNested = true := by simpa [hpublic] using hd
      rw [List.filter_cons_of_pos hpublic, List.foldl_cons, offerDef_of_isNested hnested, ih]

/-! ## Sources that answer look-ups alike -/

theorem offer_eq_of_typeDef_eq (h : src₁.typeDef = src₂.typeDef) : offer src₁ = offer src₂ := by
  have hresolve : ∀ (g : TypeGraph) ty, g.resolve src₁ ty = g.resolve src₂ ty := by
    intro g ty
    cases ty with
    | named name args => rw [TypeGraph.resolve, TypeGraph.resolve, h]
    | param _ | array _ _ | byRef _ | pointer _ => rfl
  funext f ty
  rw [offer, offer, hresolve]

/-- The loop asks a source for nothing but definitions of names. -/
theorem close_eq_of_typeDef_eq (h : src₁.typeDef = src₂.typeDef) (f : Frontier) :
    f.close src₁ = f.close src₂ := by
  induction f using close.induct src₁ with
  | case1 f hp =>
    obtain ⟨g, pending⟩ := f
    cases hp
    rw [close_nil, close_nil]
  | case2 f d pending hp ih =>
    obtain ⟨g, pending'⟩ := f
    cases hp
    have hexpand : expand src₁ ⟨g, pending⟩ d = expand src₂ ⟨g, pending⟩ d := by
      rw [expand, expand, offer_eq_of_typeDef_eq h]
    rw [close_cons, close_cons, ← hexpand]
    have hrest : (expand src₁ ⟨g, pending⟩ d).close src₁ =
        (expand src₁ ⟨g, pending⟩ d).close src₂ := ih
    rw [hrest]

end Frontier

namespace TypeGraph

theorem offerSeed_eq_of_paddedBy (h : src₁.PaddedBy src₂) (g : TypeGraph) (s : Seed) :
    g.offerSeed src₁ s = g.offerSeed src₂ s := by
  cases s with
  | assembly name =>
    have hexported := h.exported name
    rw [offerSeed, offerSeed]
    cases h₁ : src₁.exported name with
    | none =>
      rw [h₁] at hexported
      cases h₂ : src₂.exported name with
      | none => rfl
      | some e₂ => rw [h₂] at hexported; cases hexported
    | some e₁ =>
      rw [h₁] at hexported
      cases h₂ : src₂.exported name with
      | none => rw [h₂] at hexported; cases hexported
      | some e₂ =>
        rw [h₂] at hexported
        cases hexported with
        | some hpadded =>
          exact congrArg Except.ok (Frontier.foldl_offerDef_padded hpadded g.frontier).symm
  | named fullName => rw [offerSeed, offerSeed, h.typeDef_eq]
  | reference ty => rw [offerSeed, offerSeed, Frontier.offer_eq_of_typeDef_eq h.typeDef_eq]

/-- A seed is answered alike, down to the order in which definitions were expanded. -/
theorem seed_eq_of_paddedBy (h : src₁.PaddedBy src₂) (g : TypeGraph) (s : Seed) :
    g.seed src₁ s = g.seed src₂ s := by
  have hclose : Frontier.closeLinked src₁ = Frontier.closeLinked src₂ := by
    funext f
    rw [Frontier.closeLinked, Frontier.closeLinked, f.close_eq_of_typeDef_eq h.typeDef_eq]
  rw [seed, seed, offerSeed_eq_of_paddedBy h, hclose]

/-- What an operation answers: how many types a seed has brought in, or that it is unknown. A
clearing answers nothing. -/
def answer? (src : Source) (g : TypeGraph) : Operation → Option (Except UnknownSeed Nat)
  | .seed s => some ((g.seed src s).map Growth.added)
  | .clear => none

/-- What the operations of a run answer, and the graphs they lead to one after the other. -/
def history (src : Source) (g : TypeGraph) :
    List Operation → List (Option (Except UnknownSeed Nat) × TypeGraph)
  | [] => []
  | op :: ops => (g.answer? src op, g.apply src op) :: (g.apply src op).history src ops

theorem apply_eq_of_paddedBy (h : src₁.PaddedBy src₂) (g : TypeGraph) (op : Operation) :
    g.answer? src₁ op = g.answer? src₂ op ∧ g.apply src₁ op = g.apply src₂ op := by
  cases op with
  | seed s =>
    rw [answer?, answer?, apply, apply, seed_eq_of_paddedBy h]
    exact ⟨rfl, rfl⟩
  | clear => exact ⟨rfl, rfl⟩

theorem history_eq_of_paddedBy (h : src₁.PaddedBy src₂) (g : TypeGraph) (ops : List Operation) :
    g.history src₁ ops = g.history src₂ ops ∧ g.applyAll src₁ ops = g.applyAll src₂ ops := by
  induction ops generalizing g with
  | nil => exact ⟨rfl, rfl⟩
  | cons op ops ih =>
    obtain ⟨hanswer, happly⟩ := apply_eq_of_paddedBy h g op
    obtain ⟨hhistory, hall⟩ := ih (g.apply src₂ op)
    refine ⟨?_, ?_⟩
    · rw [history, history, hanswer, happly, hhistory]
    · rw [applyAll, applyAll, List.foldl_cons, List.foldl_cons, happly]
      exact hall

/-- Definitions that a source exports though nobody else can see them make no difference: not to
what any operation of a run answers, not to the graph after it, descriptor by descriptor in the
order of admission, and so not to what is written in the end. -/
theorem unseen_exports_change_nothing {src₁ src₂ : Source} (h : src₁.PaddedBy src₂)
    (ops : List Operation) :
    empty.history src₁ ops = empty.history src₂ ops ∧
      empty.applyAll src₁ ops = empty.applyAll src₂ ops ∧
      ∀ config, (empty.applyAll src₁ ops).emit config = (empty.applyAll src₂ ops).emit config := by
  obtain ⟨hhistory, hall⟩ := history_eq_of_paddedBy h empty ops
  refine ⟨hhistory, hall, fun config => ?_⟩
  rw [hall]

end TypeGraph

/-- A set pads what it exports when it leaves the filter out. -/
theorem MetadataSet.source_paddedBy_rawSource (set : MetadataSet) :
    set.source.PaddedBy set.rawSource where
  typeDef_eq := rfl
  exported name := by
    change Option.Rel _ (set.exported name) (set.exportedRaw name)
    rw [exported, exportedRaw]
    cases set.assembly? name with
    | none => exact .none
    | some assembly => exact .some (padded_filter_isVisible assembly.types)

namespace TypeGraph

/-- An assembly with a private, a nested and a repeated definition among its types, seeded before
and after a clearing. -/
theorem unseen_exports_change_nothing_raw :
    let visible : TypeDef := { space := "N", name := "Widget" }
    let hidden : TypeDef := { space := "N", name := "Widget", isPublic := false, isAbstract := true }
    let nested : TypeDef := { name := "Part", declaringType := some "N.Widget" }
    let set := MetadataSet.ofAssemblies [{ name := "A", types := [hidden, nested, visible, visible] }]
    let ops : List Operation := [.seed (.assembly "A"), .clear, .seed (.assembly "A")]
    (set.source.exported "A").map (fun e => e.types.length) = some 2 ∧
      (set.rawSource.exported "A").map (fun e => e.types.length) = some 4 ∧
      set.source.PaddedBy set.rawSource ∧
      empty.history set.source ops = empty.history set.rawSource ops := by
  intro visible hidden nested set ops
  have h := set.source_paddedBy_rawSource
  exact ⟨rfl, rfl, h, (unseen_exports_change_nothing h ops).1⟩

end TypeGraph

end Typings
