import Typings.Proofs.Declaration.Nesting
import Typings.Proofs.Declaration.References

/-! # What a reference resolves to

`Resolves` says what is written for a reference: the word of a primitive, as the table `words` has
it by full name, the path of a plain type of the graph, or `any` for the references that `Escapes`
lists. No two of these fit one reference with different texts, and one always fits, so they describe
the token exactly. A plain type is always declared, because its skipping would take a generic
argument. A bare type parameter is written only where the type has it as a generic argument, and
then its header lists it.
-/
namespace Typings

namespace Primitive

/-- The words of the primitives by full name: of each one itself (`false`), and of the rank-1 arrays
(`true`) of all but `System.Void`. -/
def words : List (String × Bool × String) :=
  [("System.Void", false, "void"), ("System.Boolean", false, "boolean"),
    ("System.Boolean", true, "boolean[]"), ("System.Char", false, "string"),
    ("System.Char", true, "string[]"), ("System.String", false, "string"),
    ("System.String", true, "string[]"), ("System.Byte", false, "number"),
    ("System.Byte", true, "number[]"), ("System.SByte", false, "number"),
    ("System.SByte", true, "number[]"), ("System.Int16", false, "number"),
    ("System.Int16", true, "number[]"), ("System.UInt16", false, "number"),
    ("System.UInt16", true, "number[]"), ("System.Int32", false, "number"),
    ("System.Int32", true, "number[]"), ("System.UInt32", false, "number"),
    ("System.UInt32", true, "number[]"), ("System.Int64", false, "number"),
    ("System.Int64", true, "number[]"), ("System.UInt64", false, "number"),
    ("System.UInt64", true, "number[]"), ("System.Single", false, "number"),
    ("System.Single", true, "number[]"), ("System.Double", false, "number"),
    ("System.Double", true, "number[]"), ("System.Decimal", false, "number"),
    ("System.Decimal", true, "number[]")]

/-- The full name of a type that has a word of its own. -/
def IsName (name : String) : Prop := ∃ word, (name, false, word) ∈ words

/-- The word for a reference to a primitive without arguments, or to a rank-1 array of one. -/
inductive Denoted : TypeRef → String → Prop where
  | plain {name word : String} (h : (name, false, word) ∈ words) : Denoted (.named name []) word
  | array {name word : String} (h : (name, true, word) ∈ words) :
      Denoted (.array (.named name []) 1) word

/-- Arrays of primitives have words, those of `System.Void` apart. -/
theorem exists_arrayWord_iff {name : String} :
    (∃ word, (name, true, word) ∈ words) ↔ IsName name ∧ name ≠ "System.Void" := by
  have harray : ∀ entry ∈ words, entry.2.1 = true →
      (∃ plain ∈ words, plain.1 = entry.1 ∧ plain.2.1 = false) ∧ entry.1 ≠ "System.Void" := by
    decide
  have hplain : ∀ entry ∈ words, entry.1 ≠ "System.Void" →
      ∃ array ∈ words, array.1 = entry.1 ∧ array.2.1 = true := by
    decide
  constructor
  · intro h
    obtain ⟨_, hw⟩ := h
    obtain ⟨⟨⟨_, _, word⟩, hword, rfl, rfl⟩, hvoid⟩ := harray _ hw rfl
    exact ⟨⟨word, hword⟩, hvoid⟩
  · intro h
    obtain ⟨⟨_, hw⟩, hvoid⟩ := h
    obtain ⟨⟨_, _, word⟩, hword, rfl, rfl⟩ := hplain _ hw hvoid
    exact ⟨word, hword⟩

/-! ## The primitive of a full name -/

theorem mem_names_iff {p : Primitive} {name : String} : (p, name) ∈ names ↔ p.name = name := by
  have hname : ∀ entry ∈ names, entry.1.name = entry.2 := by decide
  constructor
  · exact hname _
  · rintro rfl
    cases p <;> decide

theorem name_injective {p q : Primitive} (h : p.name = q.name) : p = q := by
  have hnodup : ∀ a ∈ names, ∀ b ∈ names, a.2 = b.2 → a.1 = b.1 := by decide
  exact hnodup _ (mem_names_iff.mpr rfl) _ (mem_names_iff.mpr rfl) h

theorem ofFullName?_eq_some_iff {name : String} {p : Primitive} :
    ofFullName? name = some p ↔ name = "System." ++ p.name := by
  constructor
  · intro h
    obtain ⟨entry, hentry, rfl⟩ := Option.map_eq_some_iff.mp h
    have hfull : "System." ++ entry.2 = name := by simpa using List.find?_some hentry
    rw [← hfull, mem_names_iff.mp (List.mem_of_find?_eq_some hentry)]
  · rintro rfl
    have hp : (p, p.name) ∈ names := mem_names_iff.mpr rfl
    cases hfound : names.find? fun entry => "System." ++ entry.2 = "System." ++ p.name with
    | none => exact absurd (List.find?_eq_none.mp hfound _ hp) (by simp)
    | some entry =>
      have hname : entry.2 = p.name := by simpa using List.find?_some hfound
      have hmem := mem_names_iff.mp (List.mem_of_find?_eq_some hfound)
      rw [ofFullName?, hfound, Option.map_some, name_injective (hmem.trans hname)]

theorem words_eq_flatMap :
    words = names.flatMap fun (p, name) =>
      ("System." ++ name, false, p.scalar.text) ::
        if p = .void then [] else [("System." ++ name, true, p.scalar.text ++ "[]")] := rfl

/-- The word for a name is the one that the primitive of that name is written with. -/
theorem mem_words_iff (root : String) {name word : String} {array : Bool} :
    (name, array, word) ∈ words ↔
      ∃ p, ofFullName? name = some p ∧ (array = true → p ≠ .void) ∧
        (TypeToken.scalar p.scalar array).text root = word := by
  simp only [words_eq_flatMap, List.mem_flatMap, Prod.exists, mem_names_iff,
    ofFullName?_eq_some_iff]
  constructor
  · intro hw
    obtain ⟨p, _, rfl, h⟩ := hw
    rcases List.mem_cons.mp h with h | h
    · cases h
      exact ⟨p, rfl, Bool.noConfusion, rfl⟩
    · split at h
      · cases h
      · next hvoid =>
        cases List.mem_singleton.mp h
        exact ⟨p, rfl, fun _ => hvoid, rfl⟩
  · intro h
    obtain ⟨p, rfl, hvoid, rfl⟩ := h
    refine ⟨p, _, rfl, ?_⟩
    cases array with
    | false => exact List.mem_cons_self
    | true =>
      rw [if_neg (hvoid rfl)]
      exact List.mem_cons_of_mem _ (List.mem_singleton.mpr rfl)

/-! ## The primitive of a reference -/

theorem denoted_iff (root : String) {ty : TypeRef} {word : String} :
    Denoted ty word ↔
      ∃ p array, ofRef? ty = some (p, array) ∧
        (TypeToken.scalar p.scalar array).text root = word := by
  constructor
  · intro h
    cases h with
    | plain h =>
      obtain ⟨p, hp, -, ht⟩ := (mem_words_iff root).mp h
      exact ⟨p, false, by simp [ofRef?, hp], ht⟩
    | array h =>
      obtain ⟨p, hp, hvoid, ht⟩ := (mem_words_iff root).mp h
      exact ⟨p, true, by simp [ofRef?, hp, hvoid], ht⟩
  · intro hp
    obtain ⟨p, array, h, ht⟩ := hp
    unfold ofRef? at h
    split at h
    · obtain ⟨q, hq, he⟩ := Option.map_eq_some_iff.mp h
      cases he
      exact .plain ((mem_words_iff root).mpr ⟨p, hq, Bool.noConfusion, ht⟩)
    · obtain ⟨q, hq, he⟩ := Option.bind_eq_some_iff.mp h
      split at he
      · cases he
      · next hvoid =>
        cases he
        exact .array ((mem_words_iff root).mpr ⟨p, hq, fun _ => hvoid, ht⟩)
    · cases h

theorem ofRef?_eq_none_iff {ty : TypeRef} : ofRef? ty = none ↔ ∀ word, ¬ Denoted ty word := by
  constructor
  · intro h word hd
    obtain ⟨p, array, ho, -⟩ := (denoted_iff "").mp hd
    rw [h] at ho; cases ho
  · intro h
    cases ho : ofRef? ty with
    | none => rfl
    | some found => exact absurd ((denoted_iff "").mpr ⟨_, _, ho, rfl⟩) (h _)

theorem not_denoted_named {name : String} (h : ¬ IsName name) (word : String) :
    ¬ Denoted (.named name []) word := by
  intro hd
  cases hd with
  | plain hw => exact h ⟨word, hw⟩

end Primitive

theorem Descriptor.isGeneric_eq_false_iff {y : Descriptor} :
    y.isGeneric = false ↔ y.definition.genericArgs = [] := by
  simp [isGeneric, TypeDef.isGeneric]

/-- The parameters in the list of a member. -/
def Member.params : Member → List Parameter
  | .constructor params | .method _ _ params _ | .event _ _ params _ => params
  | .literal .. | .field .. | .property .. => []

namespace TypeGraph

open Primitive (Denoted IsName)

/-- The references that no word and no declaration stands for. -/
inductive Escapes (g : TypeGraph) : TypeRef → Prop where
  | byRef (ty : TypeRef) : Escapes g (.byRef ty)
  | pointer (ty : TypeRef) : Escapes g (.pointer ty)
  | param (name : String) : Escapes g (.param name)
  | ranked (ty : TypeRef) {rank : Nat} (h : rank ≠ 1) : Escapes g (.array ty rank)
  | element {ty : TypeRef} (h : ∀ name, ty = .named name [] → IsName name → name = "System.Void") :
      Escapes g (.array ty 1)
  | constructed (name : String) {args : List TypeRef} (h : args ≠ []) : Escapes g (.named name args)
  | unknown {name : String} (hp : ¬ IsName name) (h : name ∉ g.fullNames) :
      Escapes g (.named name [])
  | generic {y : Descriptor} (hp : ¬ IsName y.fullName) (hy : y ∈ g.descriptors)
      (h : y.definition.genericArgs ≠ []) : Escapes g (.named y.fullName [])

/-- What is written for a reference: primitives come before declarations. -/
inductive Resolves (g : TypeGraph) (root : String) : TypeRef → String → Prop where
  | primitive {ty : TypeRef} {word : String} (h : Denoted ty word) : Resolves g root ty word
  | declared {y : Descriptor} (hp : ¬ IsName y.fullName) (hy : y ∈ g.descriptors)
      (h : y.definition.genericArgs = []) :
      Resolves g root (.named y.fullName []) (root ++ "." ++ y.fullName)
  | escaped {ty : TypeRef} (h : Escapes g ty) : Resolves g root ty "any"

variable {g : TypeGraph} {root : String} {ty : TypeRef}

/-! ## The token of a reference -/

theorem text_tokenOf_of_denoted {word : String} (h : Denoted ty word) :
    (g.tokenOf ty).text root = word := by
  obtain ⟨p, array, ho, ht⟩ := (Primitive.denoted_iff root).mp h
  rw [tokenOf, ho]
  exact ht

theorem Escapes.not_denoted (h : g.Escapes ty) (word : String) : ¬ Denoted ty word := by
  intro hd
  cases h with
  | byRef | pointer | param => cases hd
  | ranked ty hr => cases hd; exact hr rfl
  | element hv =>
    cases hd with
    | array hw =>
      obtain ⟨hname, hvoid⟩ := Primitive.exists_arrayWord_iff.mp ⟨word, hw⟩
      exact hvoid (hv _ rfl hname)
  | constructed name ha => cases hd; exact ha rfl
  | unknown hp | generic hp => exact Primitive.not_denoted_named hp word hd

theorem Indexed.isPlainType_eq_false (h : g.Indexed) {name : String} (hn : name ∉ g.fullNames) :
    g.isPlainType name = false := by
  cases hp : g.isPlainType name with
  | false => rfl
  | true =>
    obtain ⟨y, hy, rfl, -⟩ := h.exists_of_isPlainType hp
    exact absurd (List.mem_map_of_mem (Array.mem_toList_iff.mpr hy)) hn

theorem Indexed.tokenOf_eq_any (h : g.Indexed) (he : g.Escapes ty) : g.tokenOf ty = .any := by
  rw [tokenOf, Primitive.ofRef?_eq_none_iff.mpr he.not_denoted]
  cases he with
  | byRef | pointer | param | ranked | element => rfl
  | @constructed name args ha =>
    cases args with
    | nil => exact absurd rfl ha
    | cons => rfl
  | unknown _ hn => simp [TypeRef.plainName?, h.isPlainType_eq_false hn]
  | generic _ hy hg =>
    have hgeneric := mt Descriptor.isGeneric_eq_false_iff.mp hg
    simp [TypeRef.plainName?, h.isPlainType_fullName hy, hgeneric]

theorem Indexed.text_eq_of_resolves (h : g.Indexed) {s : String} (hs : g.Resolves root ty s) :
    (g.tokenOf ty).text root = s := by
  cases hs with
  | primitive hd => exact text_tokenOf_of_denoted hd
  | declared hp hy hg =>
    have ho := Primitive.ofRef?_eq_none_iff.mpr (Primitive.not_denoted_named hp)
    rw [h.tokenOf_eq_declared hy (Descriptor.isGeneric_eq_false_iff.mpr hg) ho]
    rfl
  | escaped he => rw [h.tokenOf_eq_any he]; rfl

/-- Something is written for every reference. -/
theorem exists_resolves (g : TypeGraph) (root : String) (ty : TypeRef) :
    ∃ s, g.Resolves root ty s := by
  by_cases hd : ∃ word, Denoted ty word
  · obtain ⟨word, hd⟩ := hd
    exact ⟨word, .primitive hd⟩
  · cases ty with
    | byRef ty => exact ⟨_, .escaped (.byRef ty)⟩
    | pointer ty => exact ⟨_, .escaped (.pointer ty)⟩
    | param name => exact ⟨_, .escaped (.param name)⟩
    | array ty rank =>
      by_cases hr : rank = 1
      · subst hr
        refine ⟨_, .escaped (.element fun name he hname => ?_)⟩
        subst he
        by_contra hvoid
        obtain ⟨word, hw⟩ := Primitive.exists_arrayWord_iff.mpr ⟨hname, hvoid⟩
        exact hd ⟨word, .array hw⟩
      · exact ⟨_, .escaped (.ranked ty hr)⟩
    | named name args =>
      cases args with
      | cons arg args => exact ⟨_, .escaped (.constructed name (List.cons_ne_nil arg args))⟩
      | nil =>
        have hp : ¬ IsName name := fun ⟨word, hw⟩ => hd ⟨word, .plain hw⟩
        by_cases hn : name ∈ g.fullNames
        · obtain ⟨y, hy, rfl⟩ := List.mem_map.mp hn
          rw [Array.mem_toList_iff] at hy
          by_cases hg : y.definition.genericArgs = []
          · exact ⟨_, .declared hp hy hg⟩
          · exact ⟨_, .escaped (.generic hp hy hg)⟩
        · exact ⟨_, .escaped (.unknown hp hn)⟩

theorem Indexed.text_tokenOf_eq_iff (h : g.Indexed) {s : String} :
    (g.tokenOf ty).text root = s ↔ g.Resolves root ty s := by
  refine ⟨?_, h.text_eq_of_resolves⟩
  rintro rfl
  obtain ⟨s, hs⟩ := g.exists_resolves root ty
  exact h.text_eq_of_resolves hs ▸ hs

/-- Only a path has a point in it. -/
theorem text_eq_qualify_iff {t : TypeToken} (hparam : ∀ name, t ≠ .parameter name) {name : String} :
    t.text root = qualify root name ↔ t = .declared name := by
  have hpoint : '.' ∈ (qualify root name).toList := by simp [qualify]
  constructor
  · intro h
    rw [← h] at hpoint
    cases t with
    | scalar word array =>
      exfalso
      rw [TypeToken.text] at hpoint
      revert hpoint
      cases word <;> cases array <;> decide
    | declared other => rw [(String.append_right_inj _).mp h]
    | parameter name => exact absurd rfl (hparam name)
    | any | anyArray =>
      exfalso
      rw [TypeToken.text] at hpoint
      revert hpoint
      decide
  · rintro rfl; rfl

theorem tokenOf_ne_parameter (g : TypeGraph) (ty : TypeRef) (name : String) :
    g.tokenOf ty ≠ .parameter name := by
  unfold tokenOf
  repeat' split
  all_goals exact TypeToken.noConfusion

/-- A path is written for plain types of the graph without a word of their own, and for nothing
else. -/
theorem Indexed.text_tokenOf_eq_qualify_iff (h : g.Indexed) {name : String} :
    (g.tokenOf ty).text root = qualify root name ↔
      ty = .named name [] ∧ ¬ IsName name ∧
        ∃ y ∈ g.descriptors, y.fullName = name ∧ y.definition.genericArgs = [] := by
  constructor
  · intro ht
    have htoken := (text_eq_qualify_iff (g.tokenOf_ne_parameter ty)).mp ht
    unfold tokenOf at htoken
    split at htoken
    · cases htoken
    · next ho =>
      split at htoken
      · next other hother =>
        split at htoken
        · next hplain =>
          cases htoken
          cases TypeRef.plainName?_eq_some_iff.mp hother
          obtain ⟨y, hy, hn, hg⟩ := h.exists_of_isPlainType hplain
          refine ⟨rfl, ?_, y, hy, hn, Descriptor.isGeneric_eq_false_iff.mp hg⟩
          rintro ⟨word, hw⟩
          exact Primitive.ofRef?_eq_none_iff.mp ho word (.plain hw)
        · cases htoken
      · cases htoken
  · rintro ⟨rfl, hp, y, hy, rfl, hg⟩
    exact h.text_tokenOf_eq_iff.mpr (.declared hp hy hg)

/-! ## Blocks of plain types -/

theorem infix_flatMap_of_mem {α β : Type} {f : α → List β} {l : List α} {a : α} (h : a ∈ l) :
    f a <:+: l.flatMap f := by
  obtain ⟨front, back, rfl⟩ := List.append_of_mem h
  exact ⟨front.flatMap f, back.flatMap f, by simp⟩

/-- The lines of a block of a document stand one after the other in the document. -/
theorem linesAt_infix_of_mem_placed {doc : Document} {space : String} {b : Block}
    (h : (space, b) ∈ doc.placed) (root : String) :
    ∃ depth, b.linesAt root depth <:+: doc.lines root := by
  obtain ⟨s, hs, hb⟩ := List.mem_flatMap.mp h
  obtain ⟨_, hb, he⟩ := List.mem_map.mp hb
  cases he
  have inside : ∀ {header : String} {depth : Nat} {body : List Line},
      body <:+: Line.blockAt depth header body :=
    fun {_ _ _} => ⟨[_], [_], rfl⟩
  have hspace : ∃ depth, b.linesAt root depth <:+: s.nested root := by
    unfold SpaceBlock.nested
    split
    · exact ⟨1, infix_flatMap_of_mem hb⟩
    · exact ⟨2, (infix_flatMap_of_mem hb).trans inside⟩
  obtain ⟨depth, hdepth⟩ := hspace
  refine ⟨depth, hdepth.trans ?_⟩
  rw [Document.lines_eq_nested]
  exact (infix_flatMap_of_mem hs).trans inside

/-! ## Type parameters -/

theorem type_eq_parameter {x : Descriptor} {index : Nat} {p : ParamDef} {name : String}
    (h : (g.parameter x index p).type = .parameter name) : .param name ∈ x.genericArgs := by
  have htoken : g.parameterToken x p.type = .parameter name := by
    unfold parameter at h
    split at h
    · dsimp only at h
      split at h
      · exact h
      · cases h
    · split at h <;> exact h
  generalize p.type = ty at htoken
  unfold parameterToken at htoken
  split at htoken
  · split at htoken
    · next hgeneric =>
      cases htoken
      simpa [Descriptor.hasGenericParam, TypeRef.isParam] using hgeneric
    · exact absurd htoken (g.tokenOf_ne_parameter _ _)
  · exact absurd htoken (g.tokenOf_ne_parameter _ _)

theorem exists_parameter_of_mem {config : Config} {x : Descriptor} {m : Member}
    (hm : m ∈ g.members config x) {p : Parameter} (hp : p ∈ m.params) :
    ∃ index source, g.parameter x index source = p := by
  have hlist : ∀ {params : List ParamDef}, p ∈ g.parameters x params →
      ∃ index source, g.parameter x index source = p := by
    intro params h
    obtain ⟨⟨source, index⟩, -, he⟩ := List.mem_map.mp h
    exact ⟨index, source, he⟩
  unfold members at hm
  split at hm
  · obtain ⟨f, -, hf⟩ := List.mem_filterMap.mp hm
    obtain ⟨_, -, rfl⟩ := Option.map_eq_some_iff.mp hf
    cases hp
  · simp only [List.mem_append, List.mem_map] at hm
    rcases hm with (((⟨f, -, rfl⟩ | ⟨q, -, rfl⟩) | ⟨c, -, rfl⟩) | ⟨m, -, rfl⟩) | ⟨e, -, rfl⟩
    · cases hp
    · cases hp
    · exact hlist hp
    · exact hlist hp
    · exact hlist hp

/-- A bare type parameter stands in the list of the header around it. -/
theorem mem_typeParams_block {config : Config} {x : Descriptor} {m : Member}
    (hm : m ∈ (g.block config x).members) {p : Parameter} (hp : p ∈ m.params) {name : String}
    (ht : p.type = .parameter name) : name ∈ (g.block config x).typeParams := by
  obtain ⟨index, source, rfl⟩ := exists_parameter_of_mem hm hp
  exact List.mem_map.mpr ⟨.param name, type_eq_parameter ht, rfl⟩

theorem header_of_mem_typeParams {b : Block} {name : String} (h : name ∈ b.typeParams)
    (root : String) :
    b.header root =
      b.kind.keyword ++ " " ++ b.name ++ ("<" ++ String.intercalate ", " b.typeParams ++ ">") := by
  have hsome : b.typeParams.isEmpty = false := by simpa using List.ne_nil_of_mem h
  rw [Block.header, Block.suffixText, hsome, if_neg Bool.false_ne_true]

/-- In the graph that any operations over any source have led to, under any root. A reference is
written as `Resolves` says and in no other way: as the word of a primitive, as the path of a type of
the graph that is not generic, or as `any`; and a path for nothing else. A type that is not generic
is not skipped, so that every output has the lines of its block. Where a parameter in an output is
written as a bare type parameter, the header of the block lists it. -/
theorem resolution_exact (src : Source) (ops : List Operation) (root : String) :
    let g := empty.applyAll src ops
    (∀ ty s, (g.tokenOf ty).text root = s ↔ g.Resolves root ty s) ∧
      (∀ ty name, (g.tokenOf ty).text root = root ++ "." ++ name ↔
        ty = .named name [] ∧ ¬ IsName name ∧
          ∃ y ∈ g.descriptors, y.fullName = name ∧ y.definition.genericArgs = []) ∧
      (∀ y ∈ g.descriptors, y.definition.genericArgs = [] → y.skipReason? = none ∧
        ∀ config, ∃ depth,
          (g.block config y).linesAt config.root depth <:+: (g.document config).lines config.root) ∧
      ∀ config, ∀ b ∈ (g.document config).blocks, ∀ m ∈ b.members, ∀ p ∈ m.params, ∀ name,
        p.type = .parameter name → name ∈ b.typeParams ∧ b.header config.root =
          b.kind.keyword ++ " " ++ b.name ++
            ("<" ++ String.intercalate ", " b.typeParams ++ ">") := by
  intro g
  have hg : g.Linked := linked_applyAll src ops
  refine ⟨fun ty s => hg.text_tokenOf_eq_iff, fun ty name => hg.text_tokenOf_eq_qualify_iff, ?_, ?_⟩
  · intro y hy hplain
    have hnested := (screened_applyAll src ops).isNested_eq_false hy
    have hdeclared :=
      Descriptor.isDeclared_of_not_isGeneric hnested (Descriptor.isGeneric_eq_false_iff.mpr hplain)
    refine ⟨Option.isNone_iff_eq_none.mp hdeclared, fun config => ?_⟩
    exact linesAt_infix_of_mem_placed
      (mem_placed_document_iff.mpr ⟨y, hy, hdeclared, rfl, rfl⟩) config.root
  · intro config b hb m hm p hp name ht
    obtain ⟨x, -, -, rfl⟩ := mem_blocks_document_iff.mp hb
    have hname := mem_typeParams_block hm hp ht
    exact ⟨hname, header_of_mem_typeParams hname config.root⟩

end TypeGraph

end Typings
