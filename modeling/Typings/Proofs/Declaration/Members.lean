import Typings.Proofs.Declaration.Accessors
import Typings.Proofs.Declaration.Switches

/-! # The members of a block

Which lines stand in the block of a type, said in terms of its definition alone: `parts` lists what
may have a line in the order in which the lines stand, `Declares` says what has one, and `Reads` how
it reads. A type in a graph is of the kind of its definition, so these are the lines that the block
is made of, one for each part that is declared and no other. The pass that writes a file skips
members in five loops, each with tests of its own; the lines of the methods and constructors alone
say what the tests on accessors come to.
-/
namespace Typings

def Part.constructor? : Part → Option ConstructorDef
  | .constructor c => some c
  | _ => none

def Part.method? : Part → Option MethodDef
  | .method m => some m
  | _ => none

/-- The part of a type that a line stands for. -/
def MarkedLine.part? (l : MarkedLine) : Option Part :=
  match l.origin with
  | .type _ part => some part
  | _ => none

namespace TypeDef

/-- Everything that could have a line in the block of a type, in order. -/
def parts (d : TypeDef) : List Part :=
  if d.kind = .enumType then d.fields.map .literal
  else
    d.fields.map .field ++ d.properties.map .property ++ d.constructors.map .constructor ++
      d.methods.map .method ++ d.events.map .event

/-- What has a line in the block of a type. -/
def Declares (d : TypeDef) (config : Config) : Part → Prop
  | .literal f => f.isPublic = true ∧ f.constant.isSome = true
  | .field f =>
    f.isPublic = true ∧
      (f.isStatic = false ∨ config.staticMembers = true ∧ d.kind ≠ .interfaceType)
  | .property p =>
    (p.SomeAccessor fun a => a.isPublic = true) ∧
      ((¬ p.SomeAccessor fun a => a.isStatic = true) ∨
        config.staticMembers = true ∧ d.kind ≠ .interfaceType)
  | .constructor c =>
    d.kind ≠ .interfaceType ∧ c.isPublic = true ∧ c.isStatic = false ∧
      ¬ ∃ t ∈ d.propertyTokens, c.token = some t
  | .method m =>
    m.isPublic = true ∧ ¬ (m.isStatic = true ∧ d.kind = .interfaceType) ∧ ¬ d.Hides m
  | .event e => e.isPublic = true ∧ ¬ (e.isStatic = true ∧ d.kind = .interfaceType)
  | .remark | .header | .closing => False

instance (d : TypeDef) (config : Config) : DecidablePred (d.Declares config)
  | .literal _ | .field _ | .property _ | .constructor _ | .method _ | .event _ =>
    inferInstanceAs (Decidable (_ ∧ _))
  | .remark | .header | .closing => inferInstanceAs (Decidable False)

theorem declares_method_iff {d : TypeDef} {config : Config} {m : MethodDef} :
    d.Declares config (.method m) ↔
      m.isPublic = true ∧ ¬ (m.isStatic = true ∧ d.kind = .interfaceType) ∧ d.Apart m := by
  rw [apart_iff]
  rfl

/-- What stands in front of the name of a member. -/
def modifier (d : TypeDef) (isStatic : Bool) : String :=
  if d.kind ≠ .interfaceType ∧ (d.isAbstract = true ∧ d.isSealed = true ∨ isStatic = true) then
    "static "
  else ""

end TypeDef

namespace TypeGraph

/-- How the line of a part reads. -/
def Reads (g : TypeGraph) (config : Config) (x : Descriptor) (text : String) : Part → Prop
  | .literal f => ∃ value, f.constant = some value ∧ text = f.name ++ " = " ++ value.text ++ ","
  | .field f =>
    text = x.definition.modifier f.isStatic ++ f.name ++ ": " ++
      (g.tokenOf f.type).text config.root ++ ";"
  | .property p =>
    text = x.definition.modifier (p.SomeAccessor fun a => a.isStatic = true) ++
      (if config.readonlyProperties = true ∧ p.GetterOnly then "readonly " else "") ++
      p.name ++ ": " ++ (g.tokenOf p.type).text config.root ++ ";"
  | .constructor c =>
    text = "constructor(" ++ Parameter.listText config.root (g.parameters x c.params) ++ ");"
  | .method m =>
    text = x.definition.modifier m.isStatic ++ m.name ++ "(" ++
      Parameter.listText config.root (g.parameters x m.params) ++ "): " ++
      (g.tokenOf m.returns).text config.root ++ ";"
  | .event e =>
    text = x.definition.modifier e.isStatic ++ e.name ++ ": \x7b connect(callback: (" ++
      Parameter.listText config.root (g.parameters x e.signature.params) ++ ") => " ++
      (g.tokenOf e.signature.returns).text config.root ++
      "): \x7b disconnect(): void; \x7d; \x7d;"
  | .remark | .header | .closing => False

variable {g : TypeGraph} {config : Config} {x : Descriptor}

theorem staticText_eq_modifier (h : x.kind = .of x.definition) (isStatic : Bool) :
    Member.staticText (x.marksStatic isStatic) = x.definition.modifier isStatic := by
  rw [Member.staticText, Descriptor.marksStatic, isInterface_of_kind h, TypeDef.modifier,
    Descriptor.isStatic, TypeDef.isStatic]
  simp

/-- A member reads as the part that it is a member for. -/
theorem reads_of_mem_markedMembers (h : x.kind = .of x.definition) {m : Part × Member}
    (hm : m ∈ g.markedMembers config x) : g.Reads config x (m.2.text config.root) m.1 := by
  unfold markedMembers at hm
  split at hm
  · obtain ⟨f, -, hf⟩ := List.mem_filterMap.mp hm
    obtain ⟨value, hvalue, rfl⟩ := Option.map_eq_some_iff.mp hf
    exact ⟨value, hvalue, rfl⟩
  · simp only [List.mem_append, List.mem_map] at hm
    rcases hm with (((⟨f, -, rfl⟩ | ⟨p, -, rfl⟩) | ⟨c, -, rfl⟩) | ⟨m, -, rfl⟩) | ⟨e, -, rfl⟩
    · simp only [Reads, ← staticText_eq_modifier h]; rfl
    · have hreadonly : Member.readonlyText (config.readonlyProperties && p.isReadOnly) =
          if config.readonlyProperties = true ∧ p.GetterOnly then "readonly " else "" := by
        simp only [Member.readonlyText, PropertyDef.isReadOnly_eq_decide, Bool.and_eq_true,
          decide_eq_true_eq]
      simp only [Reads, ← PropertyDef.isStatic_eq_decide, ← staticText_eq_modifier h, ← hreadonly]
      rfl
    · rfl
    · simp only [Reads, ← staticText_eq_modifier h]; rfl
    · simp only [Reads, ← staticText_eq_modifier h]; rfl

theorem filter_literal (d : TypeDef) (config : Config) (fields : List FieldDef) :
    (fields.map Part.literal).filter (d.Declares config) =
      (fields.filter FieldDef.isPublic).filterMap fun f => f.constant.map fun _ => .literal f := by
  rw [List.filter_map, ← List.filterMap_eq_map, List.filterMap_filter, List.filterMap_filter]
  refine List.filterMap_congr fun f _ => ?_
  cases hp : f.isPublic <;> cases hc : f.constant <;> simp [TypeDef.Declares, hp, hc]

theorem filter_eq_filter_of_iff {α : Type} {p : α → Bool} {P : α → Prop} [DecidablePred P]
    (h : ∀ a, p a = true ↔ P a) (l : List α) : l.filter p = l.filter P :=
  List.filter_congr fun a _ => Bool.eq_iff_iff.mpr ((h a).trans decide_eq_true_iff.symm)

section Groups

variable (h : x.kind = .of x.definition)

include h

theorem declaredFields_eq :
    x.declaredFields config =
      x.definition.fields.filter fun f => x.definition.Declares config (.field f) := by
  refine filter_eq_filter_of_iff (fun f => ?_) _
  simp [Descriptor.declaresSlot, isInterface_of_kind h, TypeDef.Declares]

theorem declaredProperties_eq :
    x.declaredProperties config =
      x.definition.properties.filter fun p => x.definition.Declares config (.property p) := by
  refine filter_eq_filter_of_iff (fun p => ?_) _
  simp [PropertyDef.isPublic_eq_decide, PropertyDef.isStatic_eq_decide, Descriptor.declaresSlot,
    isInterface_of_kind h, TypeDef.Declares]

theorem declaredConstructors_eq (config : Config) :
    x.declaredConstructors =
      x.definition.constructors.filter fun c => x.definition.Declares config (.constructor c) := by
  refine filter_eq_filter_of_iff (fun c => ?_) _
  simp [isInterface_of_kind h, TypeDef.Declares, ← TypeDef.isPropertyAccessor_iff, and_assoc]

theorem declaredMethods_eq (config : Config) :
    x.declaredMethods =
      x.definition.methods.filter fun m => x.definition.Declares config (.method m) := by
  refine filter_eq_filter_of_iff (fun m => ?_) _
  simp only [TypeDef.Declares, ← TypeDef.isAccessor_iff, isInterface_of_kind h, Bool.and_eq_true,
    Bool.not_eq_true', Bool.eq_false_iff, ne_eq, decide_eq_true_eq, and_right_comm, and_assoc]

theorem declaredEvents_eq (config : Config) :
    x.declaredEvents =
      x.definition.events.filter fun e => x.definition.Declares config (.event e) := by
  refine filter_eq_filter_of_iff (fun e => ?_) _
  simp only [TypeDef.Declares, isInterface_of_kind h, Bool.and_eq_true, Bool.not_eq_true',
    Bool.eq_false_iff, ne_eq, decide_eq_true_eq]

/-- The members of a type are members for its declared parts, in the order of the parts. -/
theorem fst_markedMembers (g : TypeGraph) (config : Config) :
    (g.markedMembers config x).map Prod.fst =
      x.definition.parts.filter (x.definition.Declares config) := by
  rw [markedMembers, TypeDef.parts, isEnum_of_kind h]
  simp only [decide_eq_true_eq]
  split
  · rw [filter_literal, List.map_filterMap]
    refine List.filterMap_congr fun f _ => ?_
    cases f.constant <;> rfl
  · rw [declaredFields_eq h, declaredProperties_eq h, declaredConstructors_eq h config,
      declaredMethods_eq h config, declaredEvents_eq h config]
    simp only [List.map_append, List.map_map, List.filter_append, List.filter_map]
    rfl

/-- One line for each declared part, in order, and each reads as its part does. -/
theorem forall₂_memberLines (g : TypeGraph) (config : Config) (depth : Nat) :
    List.Forall₂ (fun part l => l.origin = .type x.definition part ∧ l.depth = depth ∧
        g.Reads config x (l.line config.root).text part)
      (x.definition.parts.filter (x.definition.Declares config))
      ((g.markedMembers config x).map (memberLine x.definition depth)) := by
  rw [← fst_markedMembers h, List.forall₂_map_left_iff, List.forall₂_map_right_iff]
  refine List.forall₂_same.mpr fun m hm => ⟨rfl, rfl, ?_⟩
  rw [memberLine, MarkedLine.line, Member.joined_pieces]
  exact reads_of_mem_markedMembers h hm

theorem filterMap_part_typeLines {α : Type} (g : TypeGraph) (config : Config)
    {f : Part → Option α} (hremark : f .remark = none) (hheader : f .header = none)
    (hclosing : f .closing = none) :
    (g.typeLines config x).filterMap (fun l => l.part?.bind f) =
      (x.definition.parts.filter (x.definition.Declares config)).filterMap f := by
  have hremarks : (remarkLines x (declaredDepth x)).filterMap (fun l => l.part?.bind f) = [] := by
    refine List.filterMap_eq_nil_iff.mpr fun l hl => ?_
    rw [eq_of_mem_remarkLines hl]
    exact hremark
  have hmembers : ((g.markedMembers config x).map (memberLine x.definition
      (declaredDepth x + 1))).filterMap (fun l => l.part?.bind f) =
        (x.definition.parts.filter (x.definition.Declares config)).filterMap f := by
    rw [← fst_markedMembers h, List.filterMap_map, List.filterMap_map]
    rfl
  rw [typeLines, typeLinesAt, List.filterMap_append, hremarks, List.filterMap_cons,
    List.filterMap_append, hmembers, List.filterMap_cons]
  simp only [MarkedLine.part?, Option.bind_some, hheader, hclosing, List.filterMap_nil,
    List.nil_append, List.append_nil]

theorem constructors_typeLines (henum : x.definition.kind ≠ .enumType) (g : TypeGraph)
    (config : Config) :
    ((g.typeLines config x).filterMap fun l => l.part?.bind Part.constructor?) =
      x.definition.constructors.filter fun c => x.definition.Declares config (.constructor c) := by
  rw [filterMap_part_typeLines h g config rfl rfl rfl, TypeDef.parts, if_neg henum]
  simp [List.filter_append, List.filter_map, List.filterMap_map, Function.comp_def,
    Part.constructor?]

theorem methods_typeLines (henum : x.definition.kind ≠ .enumType) (g : TypeGraph)
    (config : Config) :
    ((g.typeLines config x).filterMap fun l => l.part?.bind Part.method?) =
      x.definition.methods.filter fun m => x.definition.Declares config (.method m) := by
  rw [filterMap_part_typeLines h g config rfl rfl rfl, TypeDef.parts, if_neg henum]
  simp [List.filter_append, List.filter_map, List.filterMap_map, Function.comp_def, Part.method?]

end Groups

/-- The line of a method reads as the method does. -/
theorem reads_of_mem_typeLines (h : x.kind = .of x.definition) {l : MarkedLine}
    (hl : l ∈ g.typeLines config x) {m : MethodDef} (hm : l.part? = some (.method m)) :
    g.Reads config x (l.line config.root).text (.method m) := by
  simp only [typeLines, typeLinesAt, List.mem_append, List.mem_cons, List.mem_map,
    List.not_mem_nil, or_false] at hl
  rcases hl with hl | rfl | ⟨member, hmember, rfl⟩ | rfl
  · rw [eq_of_mem_remarkLines hl] at hm; cases hm
  · cases hm
  · have hpart : member.1 = .method m := Option.some.inj hm
    rw [memberLine, MarkedLine.line, Member.joined_pieces, ← hpart]
    exact reads_of_mem_markedMembers h hmember
  · cases hm

/-! ## Whole files -/

/-- Every line of a file that belongs to a type is in the lines of a declared type, and between its
header and its brace each of these has one line for each declared part of its definition, in the
order of the parts, and no other: the line stands one level below the header and reads as the part
does. -/
theorem blocks_have_exactly_their_members (src : Source) (ops : List Operation)
    (config : Config) :
    let g := empty.applyAll src ops
    let file := g.markedLines config
    g.emit config = (if config.header then banner ++ "\n\n" else "") ++
        String.join (file.map fun l => (l.line config.root).render config.indent) ∧
      (g.write config).run ⟨config.indent, 0, ""⟩ = some ((), ⟨config.indent, 0, g.emit config⟩) ∧
      (file.filter fun l => l.origin.type?.isSome) = g.declared.flatMap (g.typeLines config) ∧
      ∀ x ∈ g.declared, ∃ depth lines,
        g.typeLines config x = remarkLines x depth ++
          ⟨.type x.definition .header, depth, (g.block config x).headerPieces⟩ ::
            (lines ++ [⟨.type x.definition .closing, depth, [.verbatim "\x7d"]⟩]) ∧
        List.Forall₂ (fun part l => l.origin = .type x.definition part ∧ l.depth = depth + 1 ∧
            g.Reads config x (l.line config.root).text part)
          (x.definition.parts.filter (x.definition.Declares config)) lines := by
  intro g file
  have h : g.Linked := linked_applyAll src ops
  refine ⟨g.emit_eq_markedLines config, g.run_write config, g.filter_markedLines config,
    fun x hx => ?_⟩
  have hkind : x.kind = .of x.definition := h.kind_eq x (mem_declared_iff.mp hx).1
  exact ⟨declaredDepth x, _, rfl, forall₂_memberLines hkind g config _⟩

/-- Of the methods and constructors that a declared type has in a file, none is an accessor: no
method has the token of a property or an event or the accessor name of a public property, and no
constructor the token of a property. Nothing else is left out for that reason. A public method that
may stand in the type and is none of these is there as often as the definition has it, and its line
has its name behind the modifier. -/
theorem accessors_hidden_and_nothing_else (src : Source) (ops : List Operation)
    (config : Config) :
    let g := empty.applyAll src ops
    let file := g.markedLines config
    g.emit config = (if config.header then banner ++ "\n\n" else "") ++
        String.join (file.map fun l => (l.line config.root).render config.indent) ∧
      (file.filter fun l => l.origin.type?.isSome) = g.declared.flatMap (g.typeLines config) ∧
      ∀ x ∈ g.declared, x.definition.kind ≠ .enumType →
        let d := x.definition
        let methods := (g.typeLines config x).filterMap fun l => l.part?.bind Part.method?
        let constructors := (g.typeLines config x).filterMap fun l => l.part?.bind Part.constructor?
        (∀ l ∈ g.typeLines config x, ∀ m, l.part? = some (.method m) →
          g.Reads config x (l.line config.root).text (.method m)) ∧
        (∀ m ∈ methods, d.Apart m) ∧
        (∀ c ∈ constructors, ∀ p ∈ d.properties, ∀ t, c.token = some t →
          (∀ a ∈ p.getter, a.token ≠ some t) ∧ ∀ a ∈ p.setter, a.token ≠ some t) ∧
        methods.Sublist d.methods ∧
        ∀ m, m.isPublic = true → ¬ (m.isStatic = true ∧ d.kind = .interfaceType) → d.Apart m →
          methods.count m = d.methods.count m := by
  intro g file
  have h : g.Linked := linked_applyAll src ops
  refine ⟨g.emit_eq_markedLines config, g.filter_markedLines config, fun x hx henum => ?_⟩
  intro d methods constructors
  have hkind : x.kind = .of x.definition := h.kind_eq x (mem_declared_iff.mp hx).1
  have hmethods : methods = d.methods.filter fun m => d.Declares config (.method m) :=
    methods_typeLines hkind henum g config
  have hconstructors :
      constructors = d.constructors.filter fun c => d.Declares config (.constructor c) :=
    constructors_typeLines hkind henum g config
  refine ⟨fun l hl m hm => reads_of_mem_typeLines hkind hl hm, ?_, ?_, ?_, ?_⟩
  · intro m hm
    rw [hmethods] at hm
    exact (TypeDef.declares_method_iff.mp (of_decide_eq_true (List.mem_filter.mp hm).2)).2.2
  · intro c hc
    rw [hconstructors] at hc
    obtain ⟨-, -, -, htoken⟩ := of_decide_eq_true (List.mem_filter.mp hc).2
    exact TypeDef.not_mem_propertyTokens_iff.mp htoken
  · rw [hmethods]
    exact List.filter_sublist
  · intro m hpublic hstatic hapart
    rw [hmethods]
    have hdeclares : d.Declares config (.method m) :=
      TypeDef.declares_method_iff.mpr ⟨hpublic, hstatic, hapart⟩
    exact List.count_filter (decide_eq_true hdeclares)

end TypeGraph

end Typings
