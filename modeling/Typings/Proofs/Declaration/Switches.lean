import Typings.Proofs.Declaration.Accessors
import Typings.Proofs.Declaration.Pieces

/-! # What a switch changes

Of a configuration, the marked lines of a graph depend on two switches only, and on those through
the lines of fields and properties alone. Everything else in a file is a frame around them, so a
change of theirs that goes line by line is one of the whole file (`markedLines_eq_filterMap`). The
root namespace is not looked at before pieces are put into text.
-/
namespace Typings

/-- The line stands for a field or a property. -/
def Origin.isSlot : Origin → Bool
  | .type _ (.field _) | .type _ (.property _) => true
  | _ => false

/-- A public static field or property of a type that is neither an interface nor an enum. -/
def Origin.isStaticSlot : Origin → Bool
  | .type d (.field f) =>
    f.isPublic && f.isStatic && d.kind ≠ .interfaceType && d.kind ≠ .enumType
  | .type d (.property p) =>
    (p.SomeAccessor fun a => a.isPublic = true) && (p.SomeAccessor fun a => a.isStatic = true) &&
      d.kind ≠ .interfaceType && d.kind ≠ .enumType
  | _ => false

/-- A property with a public getter and no public setter. -/
def Origin.isGetterOnly : Origin → Bool
  | .type _ (.property p) => p.GetterOnly
  | _ => false

/-- The line, without the modifier `readonly` if it stands for a property that may have it. -/
def MarkedLine.withoutReadonly (l : MarkedLine) : MarkedLine :=
  if l.origin.isGetterOnly then { l with pieces := l.pieces.filter (· ≠ .readonly) } else l

/-- The public static fields and properties of a type that is neither an interface nor an enum. -/
def TypeDef.staticSlots (d : TypeDef) : List Origin :=
  (d.fields.map (fun f => Origin.type d (.field f)) ++
    d.properties.map fun p => Origin.type d (.property p)).filter Origin.isStaticSlot

namespace TypeGraph

variable {g : TypeGraph} {c c' : Config} {x : Descriptor}

/-! ## Frames -/

def fieldLine (g : TypeGraph) (x : Descriptor) (depth : Nat) (f : FieldDef) : MarkedLine :=
  memberLine x.definition depth (.field f, g.fieldMember x f)

def propertyLine (g : TypeGraph) (c : Config) (x : Descriptor) (depth : Nat) (p : PropertyDef) :
    MarkedLine :=
  memberLine x.definition depth (.property p, g.propertyMember c x p)

/-- The lines of the fields and properties of a declared type. -/
def slotLines (g : TypeGraph) (c : Config) (x : Descriptor) (depth : Nat) : List MarkedLine :=
  if x.kind.isEnum then []
  else
    (x.declaredFields c).map (g.fieldLine x depth) ++
      (x.declaredProperties c).map (g.propertyLine c x depth)

/-- Around its fields and properties, a type has the same members under every configuration. -/
theorem memberLines_eq_append (g : TypeGraph) (x : Descriptor) (depth : Nat) :
    ∃ front back : List MarkedLine, (∀ l ∈ front ++ back, l.origin.isSlot = false) ∧
      ∀ c, (g.markedMembers c x).map (memberLine x.definition depth) =
        front ++ g.slotLines c x depth ++ back := by
  cases hx : x.kind.isEnum with
  | true =>
    refine ⟨((x.definition.fields.filter FieldDef.isPublic).filterMap fun f =>
      f.constant.map fun value => (Part.literal f, Member.literal f.name value)).map
        (memberLine x.definition depth), [], ?_, fun c => ?_⟩
    · intro l hl
      rw [List.append_nil] at hl
      obtain ⟨m, hm, rfl⟩ := List.mem_map.mp hl
      obtain ⟨f, -, hf⟩ := List.mem_filterMap.mp hm
      obtain ⟨_, -, rfl⟩ := Option.map_eq_some_iff.mp hf
      rfl
    · rw [markedMembers, slotLines, if_pos hx, if_pos hx, List.append_nil, List.append_nil]
  | false =>
    have hnot : ¬ x.kind.isEnum = true := by simp [hx]
    refine ⟨[], (x.declaredConstructors.map (fun k => (Part.constructor k, g.constructorMember x k))
      ++ x.declaredMethods.map (fun m => (Part.method m, g.methodMember x m))
      ++ x.declaredEvents.map (fun e => (Part.event e, g.eventMember x e))).map
        (memberLine x.definition depth), ?_, fun c => ?_⟩
    · intro l hl
      obtain ⟨m, hm, rfl⟩ := List.mem_map.mp hl
      simp only [List.mem_append, List.mem_map] at hm
      rcases hm with (⟨k, -, rfl⟩ | ⟨m, -, rfl⟩) | ⟨e, -, rfl⟩ <;> rfl
    · rw [markedMembers, slotLines, if_neg hnot, if_neg hnot]
      simp only [List.map_append, List.map_map, List.append_assoc, List.nil_append]
      rfl

theorem filterMap_eq_self {F : MarkedLine → Option MarkedLine} {ls : List MarkedLine}
    (h : ∀ l ∈ ls, F l = some l) : ls.filterMap F = ls := by
  rw [List.filterMap_congr h]
  exact List.filterMap_some

theorem filterMap_typeLinesAt {F : MarkedLine → Option MarkedLine}
    (hframe : ∀ l, l.origin.isSlot = false → F l = some l) (depth : Nat)
    (hslots : g.slotLines c' x (depth + 1) = (g.slotLines c x (depth + 1)).filterMap F) :
    g.typeLinesAt c' depth x = (g.typeLinesAt c depth x).filterMap F := by
  -- The remark, the header, the members around the slots and the brace are all frame.
  have hremark : (remarkLines x depth).filterMap F = remarkLines x depth := by
    refine filterMap_eq_self fun l hl => hframe l ?_
    rw [eq_of_mem_remarkLines hl]
    rfl
  obtain ⟨front, back, hlines, hmembers⟩ := g.memberLines_eq_append x (depth + 1)
  have hfront : front.filterMap F = front :=
    filterMap_eq_self fun l hl => hframe l (hlines l (List.mem_append_left _ hl))
  have hback : back.filterMap F = back :=
    filterMap_eq_self fun l hl => hframe l (hlines l (List.mem_append_right _ hl))
  rw [typeLinesAt, typeLinesAt, hmembers, hmembers, List.filterMap_append, hremark,
    List.filterMap_cons_some (hframe _ rfl), List.filterMap_append, List.filterMap_append,
    List.filterMap_append, hfront, ← hslots, hback, List.filterMap_cons_some (hframe _ rfl),
    List.filterMap_nil]
  rfl

/-- What keeps, changes or drops the lines of fields and properties one by one, and leaves every
other line as it is, turns the lines under one configuration into those under another. -/
theorem markedLines_eq_filterMap {F : MarkedLine → Option MarkedLine}
    (hframe : ∀ l, l.origin.isSlot = false → F l = some l)
    (hslots : ∀ x ∈ g.declared, ∀ depth,
      g.slotLines c' x depth = (g.slotLines c x depth).filterMap F) :
    g.markedLines c' = (g.markedLines c).filterMap F := by
  have htypes : ∀ group ∈ g.declaredTypes,
      group.2.flatMap (g.typeLines c') = (group.2.flatMap (g.typeLines c)).filterMap F := by
    intro group hgroup
    rw [List.filterMap_flatMap]
    refine List.flatMap_congr fun x hx => ?_
    have hdeclared : x ∈ g.declared := List.mem_flatMap.mpr ⟨group, hgroup, hx⟩
    exact filterMap_typeLinesAt hframe _ (hslots x hdeclared _)
  have hspaces : g.declaredTypes.flatMap (g.spaceLines c') =
      (g.declaredTypes.flatMap (g.spaceLines c)).filterMap F := by
    rw [List.filterMap_flatMap]
    refine List.flatMap_congr fun group hgroup => ?_
    have hgroup := htypes group hgroup
    rw [spaceLines, spaceLines]
    split
    · exact hgroup
    · rw [List.filterMap_cons_some (hframe _ rfl), List.filterMap_append, ← hgroup,
        List.filterMap_cons_some (hframe _ rfl), List.filterMap_nil]
  rw [markedLines, markedLines, List.filterMap_cons_some (hframe _ rfl), List.filterMap_append,
    ← hspaces, List.filterMap_cons_some (hframe _ rfl), List.filterMap_nil]

theorem filter_isSlot_slotLines (g : TypeGraph) (c : Config) (x : Descriptor) (depth : Nat) :
    ((g.slotLines c x depth).filter fun l => l.origin.isSlot) = g.slotLines c x depth := by
  refine List.filter_eq_self.mpr fun l hl => ?_
  rw [slotLines] at hl
  split at hl
  · cases hl
  · rcases List.mem_append.mp hl with hl | hl
    · obtain ⟨f, -, rfl⟩ := List.mem_map.mp hl
      rfl
    · obtain ⟨p, -, rfl⟩ := List.mem_map.mp hl
      rfl

theorem filter_isSlot_typeLines (g : TypeGraph) (c : Config) (x : Descriptor) :
    ((g.typeLines c x).filter fun l => l.origin.isSlot) =
      g.slotLines c x (declaredDepth x + 1) := by
  have hnone : ∀ ls : List MarkedLine, (∀ l ∈ ls, l.origin.isSlot = false) →
      (ls.filter fun l => l.origin.isSlot) = [] := by
    intro ls hls
    refine List.filter_eq_nil_iff.mpr fun l hl => ?_
    simp [hls l hl]
  have hremark : ∀ l ∈ remarkLines x (declaredDepth x), l.origin.isSlot = false := by
    intro l hl
    rw [eq_of_mem_remarkLines hl]
    rfl
  obtain ⟨front, back, hlines, hmembers⟩ := g.memberLines_eq_append x (declaredDepth x + 1)
  have hfront := hnone front fun l hl => hlines l (List.mem_append_left _ hl)
  have hback := hnone back fun l hl => hlines l (List.mem_append_right _ hl)
  rw [typeLines, typeLinesAt, hmembers, List.filter_append, hnone _ hremark,
    List.filter_cons_of_neg (by simp [Origin.isSlot]), List.filter_append, List.filter_append,
    List.filter_append, hfront, hback, filter_isSlot_slotLines,
    List.filter_cons_of_neg (by simp [Origin.isSlot]), List.filter_nil]
  simp

/-- The lines of fields and properties are those of the declared types, in order. -/
theorem filter_isSlot_markedLines (g : TypeGraph) (c : Config) :
    ((g.markedLines c).filter fun l => l.origin.isSlot) =
      g.declared.flatMap fun x => g.slotLines c x (declaredDepth x + 1) := by
  have htype : ∀ l : MarkedLine, (l.origin.isSlot && l.origin.type?.isSome) = l.origin.isSlot := by
    intro l
    cases l.origin with
    | root | space name => rfl
    | type d part => rw [Origin.type?, Option.isSome_some, Bool.and_true]
  calc ((g.markedLines c).filter fun l => l.origin.isSlot)
      = ((g.markedLines c).filter fun l => l.origin.type?.isSome).filter
          fun l => l.origin.isSlot := by
        rw [List.filter_filter]
        exact List.filter_congr fun l _ => (htype l).symm
    _ = g.declared.flatMap fun x => g.slotLines c x (declaredDepth x + 1) := by
        rw [filter_markedLines, List.filter_flatMap]
        exact List.flatMap_congr fun x _ => g.filter_isSlot_typeLines c x

/-! ## Static members -/

theorem isEnum_of_kind (h : x.kind = .of x.definition) :
    x.kind.isEnum = decide (x.definition.kind = .enumType) := by
  rw [h, DeclKind.of, TypeDef.isInterface, TypeDef.isEnum]
  cases x.definition.kind <;> cases x.definition.isAbstract <;> rfl

theorem isInterface_of_kind (h : x.kind = .of x.definition) :
    x.isInterface = decide (x.definition.kind = .interfaceType) := by
  rw [Descriptor.isInterface, h, DeclKind.of, TypeDef.isInterface, TypeDef.isEnum]
  cases x.definition.kind <;> cases x.definition.isAbstract <;> rfl

/-- Without static members, a type that is no enum declares the slots that are not static ones. -/
theorem declares_without_static (h : x.kind = .of x.definition)
    (hnot : x.definition.kind ≠ .enumType) (c : Config) (isPublic isStatic : Bool) :
    (isPublic && x.declaresSlot { c with staticMembers := false } isStatic) =
      (!(isPublic && isStatic && x.definition.kind ≠ .interfaceType &&
          x.definition.kind ≠ .enumType) &&
        (isPublic && x.declaresSlot { c with staticMembers := true } isStatic)) := by
  simp only [Descriptor.declaresSlot, isInterface_of_kind h, hnot, ne_eq, decide_not]
  cases isPublic <;> cases isStatic <;> cases decide (x.definition.kind = .interfaceType) <;> rfl

/-- With static members, every static slot is declared. -/
theorem static_and_declares (h : x.kind = .of x.definition) (c : Config)
    (isPublic isStatic : Bool) :
    ((isPublic && isStatic && x.definition.kind ≠ .interfaceType &&
        x.definition.kind ≠ .enumType) &&
      (isPublic && x.declaresSlot { c with staticMembers := true } isStatic)) =
        (isPublic && isStatic && x.definition.kind ≠ .interfaceType &&
          x.definition.kind ≠ .enumType) := by
  simp only [Descriptor.declaresSlot, isInterface_of_kind h, ne_eq, decide_not]
  cases isPublic <;> cases isStatic <;>
    cases decide (x.definition.kind = .interfaceType) <;> simp

theorem isStaticSlot_property (d : TypeDef) (p : PropertyDef) :
    (Origin.type d (.property p)).isStaticSlot =
      (p.isPublic && p.isStatic && d.kind ≠ .interfaceType && d.kind ≠ .enumType) := by
  rw [Origin.isStaticSlot, PropertyDef.isPublic_eq_decide, PropertyDef.isStatic_eq_decide]

theorem slotLines_without_static (h : x.kind = .of x.definition) (g : TypeGraph) (c : Config)
    (depth : Nat) :
    g.slotLines { c with staticMembers := false } x depth =
      (g.slotLines { c with staticMembers := true } x depth).filter
        fun l => !l.origin.isStaticSlot := by
  rw [slotLines, slotLines]
  split
  · rfl
  · next hx =>
    have hnot : x.definition.kind ≠ .enumType := by simpa [isEnum_of_kind h] using hx
    have hfields : x.declaredFields { c with staticMembers := false } =
        (x.declaredFields { c with staticMembers := true }).filter fun f =>
          !(g.fieldLine x depth f).origin.isStaticSlot := by
      rw [Descriptor.declaredFields, Descriptor.declaredFields, List.filter_filter]
      exact List.filter_congr fun f _ => declares_without_static h hnot c f.isPublic f.isStatic
    have hproperties : x.declaredProperties { c with staticMembers := false } =
        (x.declaredProperties { c with staticMembers := true }).filter fun p =>
          !(g.propertyLine c x depth p).origin.isStaticSlot := by
      rw [Descriptor.declaredProperties, Descriptor.declaredProperties, List.filter_filter]
      refine List.filter_congr fun p _ => ?_
      rw [propertyLine, memberLine, isStaticSlot_property]
      exact declares_without_static h hnot c p.isPublic p.isStatic
    rw [List.filter_append, List.filter_map, List.filter_map, hfields, hproperties]
    rfl

/-- The static slots of a type are declared on request, each on a line of its own. -/
theorem origins_staticSlots (h : x.kind = .of x.definition) (g : TypeGraph) (c : Config)
    (depth : Nat) :
    ((g.slotLines { c with staticMembers := true } x depth).filter
      fun l => l.origin.isStaticSlot).map MarkedLine.origin = x.definition.staticSlots := by
  rw [slotLines, TypeDef.staticSlots]
  split
  · next hx =>
    rw [isEnum_of_kind h, decide_eq_true_iff] at hx
    refine (List.filter_eq_nil_iff.mpr fun o ho => ?_).symm
    rcases List.mem_append.mp ho with ho | ho
    · obtain ⟨f, -, rfl⟩ := List.mem_map.mp ho
      simp [Origin.isStaticSlot, hx]
    · obtain ⟨p, -, rfl⟩ := List.mem_map.mp ho
      simp [Origin.isStaticSlot, hx]
  · have hfields : ∀ f ∈ x.definition.fields,
        ((g.fieldLine x depth f).origin.isStaticSlot &&
          (f.isPublic && x.declaresSlot { c with staticMembers := true } f.isStatic)) =
            (Origin.type x.definition (.field f)).isStaticSlot :=
      fun f _ => static_and_declares h c f.isPublic f.isStatic
    have hproperties : ∀ p ∈ x.definition.properties,
        ((g.propertyLine { c with staticMembers := true } x depth p).origin.isStaticSlot &&
          (p.isPublic && x.declaresSlot { c with staticMembers := true } p.isStatic)) =
            (Origin.type x.definition (.property p)).isStaticSlot := by
      intro p _
      rw [propertyLine, memberLine, isStaticSlot_property]
      exact static_and_declares h c p.isPublic p.isStatic
    rw [List.filter_append, List.map_append, List.filter_map, List.filter_map,
      Descriptor.declaredFields, Descriptor.declaredProperties, List.filter_filter,
      List.filter_filter, List.map_map, List.map_map, List.filter_append, List.filter_map,
      List.filter_map]
    exact congrArg₂ (· ++ ·)
      (congrArg (List.map fun f => Origin.type x.definition (.field f)) (List.filter_congr hfields))
      (congrArg (List.map fun p => Origin.type x.definition (.property p))
        (List.filter_congr hproperties))

/-- Without static members, a file has every line but those of the static slots. -/
theorem markedLines_without_static (h : ∀ x ∈ g.declared, x.kind = .of x.definition)
    (c : Config) :
    g.markedLines { c with staticMembers := false } =
      (g.markedLines { c with staticMembers := true }).filter
        fun l => !l.origin.isStaticSlot := by
  rw [← List.filterMap_eq_filter]
  refine markedLines_eq_filterMap (fun l hl => ?_) fun x hx depth => ?_
  · have hstatic : l.origin.isStaticSlot = false := by
      cases ho : l.origin with
      | root | space name => rfl
      | type d part =>
        rw [ho] at hl
        cases part with
        | field f => cases hl
        | property p => cases hl
        | _ => rfl
    rw [Option.guard, hstatic]
    rfl
  · rw [List.filterMap_eq_filter]
    exact slotLines_without_static (h x hx) g c depth

theorem origins_static_markedLines (h : ∀ x ∈ g.declared, x.kind = .of x.definition)
    (c : Config) :
    ((g.markedLines { c with staticMembers := true }).filter
      fun l => l.origin.isStaticSlot).map MarkedLine.origin =
        g.declared.flatMap fun x => x.definition.staticSlots := by
  have hslot : ∀ l : MarkedLine,
      (l.origin.isStaticSlot && l.origin.isSlot) = l.origin.isStaticSlot := by
    intro l
    cases l.origin with
    | root | space name => rfl
    | type d part => cases part <;> simp [Origin.isStaticSlot, Origin.isSlot]
  rw [← List.filter_congr fun l _ => hslot l, ← List.filter_filter, filter_isSlot_markedLines,
    List.filter_flatMap, List.map_flatMap]
  exact List.flatMap_congr fun x hx => origins_staticSlots (h x hx) g c _

/-! ## Properties without a setter -/

/-- The modifier stands in the line of a property when it is asked for and the property has no
public setter, and then once. -/
theorem count_readonly_propertyLine (g : TypeGraph) (c : Config) (x : Descriptor) (depth : Nat)
    (p : PropertyDef) :
    (g.propertyLine c x depth p).pieces.count .readonly =
      if c.readonlyProperties && p.isReadOnly then 1 else 0 := by
  cases hr : c.readonlyProperties && p.isReadOnly <;>
    simp [propertyLine, memberLine, propertyMember, Member.pieces, hr]

theorem propertyLine_without_readonly (g : TypeGraph) (c : Config) (x : Descriptor) (depth : Nat)
    (p : PropertyDef) :
    g.propertyLine { c with readonlyProperties := false } x depth p =
      (g.propertyLine { c with readonlyProperties := true } x depth p).withoutReadonly := by
  cases hp : p.isReadOnly <;>
    simp [propertyLine, memberLine, propertyMember, Member.pieces, MarkedLine.withoutReadonly,
      Origin.isGetterOnly, ← PropertyDef.isReadOnly_eq_decide, hp]

theorem slotLines_without_readonly (g : TypeGraph) (c : Config) (x : Descriptor) (depth : Nat) :
    g.slotLines { c with readonlyProperties := false } x depth =
      (g.slotLines { c with readonlyProperties := true } x depth).map
        MarkedLine.withoutReadonly := by
  rw [slotLines, slotLines]
  split
  · rfl
  · rw [List.map_append, List.map_map, List.map_map]
    exact congrArg₂ (· ++ ·) rfl
      (List.map_congr_left fun p _ => g.propertyLine_without_readonly c x depth p)

theorem isSlot_of_isGetterOnly {o : Origin} (h : o.isGetterOnly = true) : o.isSlot = true := by
  cases o with
  | root | space name => cases h
  | type d part =>
    cases part with
    | property p => rfl
    | _ => cases h

/-- Without the modifier on request, a file has the same lines, and only those of properties with a
getter alone have changed. -/
theorem markedLines_without_readonly (g : TypeGraph) (c : Config) :
    g.markedLines { c with readonlyProperties := false } =
      (g.markedLines { c with readonlyProperties := true }).map MarkedLine.withoutReadonly := by
  rw [← List.filterMap_eq_map]
  refine markedLines_eq_filterMap (fun l hl => ?_) fun x _ depth => ?_
  · have hgetter : ¬ l.origin.isGetterOnly = true := by
      intro h
      rw [isSlot_of_isGetterOnly h] at hl
      cases hl
    rw [Function.comp_apply, MarkedLine.withoutReadonly, if_neg hgetter]
  · rw [List.filterMap_eq_map]
    exact g.slotLines_without_readonly c x depth

theorem count_readonly_markedLines {l : MarkedLine}
    (hl : l ∈ g.markedLines { c with readonlyProperties := true })
    (hgetter : l.origin.isGetterOnly = true) : l.pieces.count .readonly = 1 := by
  have hslot : l ∈ (g.markedLines { c with readonlyProperties := true }).filter
      fun l => l.origin.isSlot := List.mem_filter.mpr ⟨hl, isSlot_of_isGetterOnly hgetter⟩
  rw [filter_isSlot_markedLines] at hslot
  obtain ⟨x, -, hl⟩ := List.mem_flatMap.mp hslot
  rw [slotLines] at hl
  split at hl
  · cases hl
  · rcases List.mem_append.mp hl with hl | hl
    · obtain ⟨f, -, rfl⟩ := List.mem_map.mp hl
      cases hgetter
    · obtain ⟨p, -, rfl⟩ := List.mem_map.mp hl
      have hp : p.isReadOnly = true := PropertyDef.isReadOnly_eq_decide.trans hgetter
      rw [count_readonly_propertyLine, hp]
      rfl

/-! ## The root namespace -/

theorem rootName_not_mem_listPieces (ps : List Parameter) :
    Piece.rootName ∉ Parameter.listPieces ps := by
  cases ps with
  | nil => simp [Parameter.listPieces]
  | cons p ps => simp [Parameter.listPieces, Parameter.pieces]

theorem rootName_not_mem_member (m : Member) : Piece.rootName ∉ m.pieces := by
  cases m with
  | property isStatic isReadonly name type => cases isReadonly <;> simp [Member.pieces]
  | _ => simp [Member.pieces, rootName_not_mem_listPieces]

theorem rootName_not_mem_header (b : Block) : Piece.rootName ∉ b.headerPieces := by
  simp [Block.headerPieces]

theorem rootName_not_mem_typeLines {l : MarkedLine} (hl : l ∈ g.typeLines c x) :
    Piece.rootName ∉ l.pieces := by
  simp only [typeLines, typeLinesAt, List.mem_append, List.mem_cons, List.mem_map,
    List.not_mem_nil, or_false] at hl
  rcases hl with hl | rfl | ⟨m, -, rfl⟩ | rfl
  · rw [eq_of_mem_remarkLines hl]
    simp
  · exact rootName_not_mem_header _
  · exact rootName_not_mem_member _
  · simp

/-- The root header is the one line that names the root namespace itself. -/
theorem exists_markedLines_eq_cons (g : TypeGraph) (c : Config) :
    ∃ rest, g.markedLines c = rootHeader :: rest ∧ ∀ l ∈ rest, Piece.rootName ∉ l.pieces := by
  refine ⟨_, rfl, fun l hl => ?_⟩
  rcases List.mem_append.mp hl with hl | hl
  · obtain ⟨group, -, hl⟩ := List.mem_flatMap.mp hl
    have htypes : ∀ l ∈ group.2.flatMap (g.typeLines c), Piece.rootName ∉ l.pieces := by
      intro l hl
      obtain ⟨x, -, hl⟩ := List.mem_flatMap.mp hl
      exact rootName_not_mem_typeLines hl
    rw [spaceLines] at hl
    split at hl
    · exact htypes l hl
    · rcases List.mem_cons.mp hl with rfl | hl
      · simp
      · rcases List.mem_append.mp hl with hl | hl
        · exact htypes l hl
        · cases List.mem_singleton.mp hl
          simp
  · cases List.mem_singleton.mp hl
    simp

/-- The name of the root apart, only a reference to a declaration reads differently under another
root, and that only before the dot. -/
theorem text_under_root {p : Piece} (hp : p ≠ .rootName) :
    (∃ fullName, p = .token (.declared fullName) ∧
        ∀ root, p.text root = root ++ "." ++ fullName) ∨
      ∀ root root', p.text root = p.text root' := by
  cases p with
  | verbatim text => exact .inr fun _ _ => rfl
  | readonly => exact .inr fun _ _ => rfl
  | rootName => exact absurd rfl hp
  | token t =>
    cases t with
    | declared fullName => exact .inl ⟨fullName, rfl, fun _ => rfl⟩
    | scalar | parameter | any | anyArray => exact .inr fun _ _ => rfl

/-- Switches change only what they name. A file is its marked lines put into text. Without static
members it has those lines that do not stand for static slots, and with them it has besides exactly
one for every public static field and property of each declared type that is neither an interface
nor an enum. Without the modifier `readonly` each line is the one with it, less the one modifier
where a property has a public getter and no public setter. Under another root the lines are made of
the same pieces: the header of the root is new, and in every other line at most what stands in front
of the dot of a reference. -/
theorem switches_change_only_what_they_name (src : Source) (ops : List Operation)
    (config : Config) :
    let g := empty.applyAll src ops
    let static := fun (on : Bool) => g.markedLines { config with staticMembers := on }
    let readonly := fun (on : Bool) => g.markedLines { config with readonlyProperties := on }
    (∀ c, g.emit c = (if c.header then banner ++ "\n\n" else "") ++
        String.join ((g.markedLines c).map fun l => (l.line c.root).render c.indent)) ∧
      (static false = (static true).filter (fun l => !l.origin.isStaticSlot) ∧
        ((static true).filter fun l => l.origin.isStaticSlot).map MarkedLine.origin =
          g.declared.flatMap fun x => x.definition.staticSlots) ∧
      (readonly false = (readonly true).map MarkedLine.withoutReadonly ∧
        ∀ l ∈ readonly true, l.origin.isGetterOnly = true → l.pieces.count .readonly = 1) ∧
      ∃ rest, (∀ root, g.markedLines { config with root } = rootHeader :: rest) ∧
        ∀ l ∈ rest, ∀ p ∈ l.pieces,
          (∃ fullName, p = .token (.declared fullName) ∧
              ∀ root, p.text root = root ++ "." ++ fullName) ∨
            ∀ root root', p.text root = p.text root' := by
  intro g static readonly
  have h : g.Linked := linked_applyAll src ops
  have hkind : ∀ x ∈ g.declared, x.kind = .of x.definition := fun x hx =>
    h.kind_eq x (mem_declared_iff.mp hx).1
  obtain ⟨rest, hrest, hroot⟩ := g.exists_markedLines_eq_cons config
  refine ⟨g.emit_eq_markedLines, ⟨markedLines_without_static hkind config,
    origins_static_markedLines hkind config⟩, ⟨g.markedLines_without_readonly config,
    fun l hl => count_readonly_markedLines hl⟩, rest, fun root => hrest, fun l hl p hp => ?_⟩
  exact text_under_root fun he => hroot l hl (he ▸ hp)

end TypeGraph

end Typings
