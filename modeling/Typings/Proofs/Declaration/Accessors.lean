import Typings.Declaration.Member

/-! # Accessors

Which methods a type hides, said from the side of its properties and events: the tokens that these
list, and the two names that each public property takes up. Stripping `get_` or `set_` off the name
of a method and looking for a property of the rest comes to the same, because no name starts with
both. What holds of a property is said by its getter and its setter.
-/
namespace Typings

namespace PropertyDef

/-- The getter or the setter is there and is such. -/
def SomeAccessor (p : PropertyDef) (P : AccessorDef → Prop) : Prop :=
  (∃ a ∈ p.getter, P a) ∨ ∃ a ∈ p.setter, P a

instance (p : PropertyDef) (P : AccessorDef → Prop) [DecidablePred P] :
    Decidable (p.SomeAccessor P) :=
  inferInstanceAs (Decidable (_ ∨ _))

/-- The getter is there and public, and there is no public setter. -/
def GetterOnly (p : PropertyDef) : Prop :=
  (∃ a ∈ p.getter, a.isPublic = true) ∧ ¬ ∃ a ∈ p.setter, a.isPublic = true

instance (p : PropertyDef) : Decidable p.GetterOnly :=
  inferInstanceAs (Decidable (_ ∧ _))

variable {p : PropertyDef}

theorem any_accessors_iff {f : AccessorDef → Bool} :
    p.accessors.any f = true ↔ p.SomeAccessor fun a => f a = true := by
  simp only [accessors, SomeAccessor, List.any_append, Bool.or_eq_true, List.any_eq_true,
    Option.mem_toList, Option.mem_def]

theorem isPublic_eq_decide : p.isPublic = decide (p.SomeAccessor fun a => a.isPublic = true) :=
  Bool.eq_iff_iff.mpr (any_accessors_iff.trans decide_eq_true_iff.symm)

theorem isStatic_eq_decide : p.isStatic = decide (p.SomeAccessor fun a => a.isStatic = true) :=
  Bool.eq_iff_iff.mpr (any_accessors_iff.trans decide_eq_true_iff.symm)

theorem isReadOnly_eq_decide : p.isReadOnly = decide p.GetterOnly := by
  rw [Bool.eq_iff_iff, decide_eq_true_iff, isReadOnly, GetterOnly, Bool.and_eq_true,
    Bool.not_eq_true', ← Bool.not_eq_true, Option.any_eq_true, Option.any_eq_true]
  rfl

theorem hasAccessor_iff {t : MethodToken} :
    p.hasAccessor t = true ↔ p.SomeAccessor fun a => a.token = some t := by
  rw [hasAccessor, any_accessors_iff]
  simp only [decide_eq_true_eq]

end PropertyDef

namespace TypeDef

/-- The tokens of the getters and setters, of whatever visibility. -/
def propertyTokens (d : TypeDef) : List MethodToken :=
  d.properties.flatMap fun p =>
    (p.getter.bind AccessorDef.token).toList ++ (p.setter.bind AccessorDef.token).toList

/-- The tokens of the methods that add and remove handlers. -/
def eventTokens (d : TypeDef) : List MethodToken :=
  d.events.flatMap fun e => e.add.toList ++ e.remove.toList

/-- The names that belong to the accessors of public properties. -/
def accessorNames (d : TypeDef) : List String :=
  (d.properties.filter fun p => p.SomeAccessor fun a => a.isPublic = true).flatMap fun p =>
    ["get_" ++ p.name, "set_" ++ p.name]

/-- A method that a property or an event stands for. -/
def Hides (d : TypeDef) (m : MethodDef) : Prop :=
  (∃ t ∈ d.propertyTokens, m.token = some t) ∨ (∃ t ∈ d.eventTokens, m.token = some t) ∨
    m.name ∈ d.accessorNames

instance (d : TypeDef) (m : MethodDef) : Decidable (d.Hides m) :=
  inferInstanceAs (Decidable (_ ∨ _))

variable {d : TypeDef}

theorem mem_propertyTokens_iff {t : MethodToken} :
    t ∈ d.propertyTokens ↔ ∃ p ∈ d.properties, p.hasAccessor t = true := by
  simp only [propertyTokens, List.mem_flatMap, List.mem_append, Option.mem_toList, Option.mem_def,
    Option.bind_eq_some_iff, PropertyDef.hasAccessor_iff, PropertyDef.SomeAccessor]

theorem mem_eventTokens_iff {t : MethodToken} :
    t ∈ d.eventTokens ↔ ∃ e ∈ d.events, e.hasAccessor t = true := by
  simp only [eventTokens, List.mem_flatMap, List.mem_append, Option.mem_toList,
    EventDef.hasAccessor, Bool.or_eq_true, decide_eq_true_eq]

theorem isPropertyAccessor_iff {token : Option MethodToken} :
    d.isPropertyAccessor token = true ↔ ∃ t ∈ d.propertyTokens, token = some t := by
  cases token with
  | none => simp [isPropertyAccessor]
  | some t => simp [isPropertyAccessor, mem_propertyTokens_iff]

theorem isEventAccessor_iff {token : Option MethodToken} :
    d.isEventAccessor token = true ↔ ∃ t ∈ d.eventTokens, token = some t := by
  cases token with
  | none => simp [isEventAccessor]
  | some t => simp [isEventAccessor, mem_eventTokens_iff]

theorem accessedName?_eq_some_iff {name property : String} :
    accessedName? name = some property ↔ name = "get_" ++ property ∨ name = "set_" ++ property := by
  constructor
  · intro h
    unfold accessedName? at h
    split at h
    · next rest hname =>
      cases h
      exact .inl (String.toList_inj.mp (by rw [hname, String.toList_append]; simp))
    · next rest hname =>
      cases h
      exact .inr (String.toList_inj.mp (by rw [hname, String.toList_append]; simp))
    · cases h
  · rintro (rfl | rfl)
    · simp [accessedName?, String.toList_append]
    · simp [accessedName?, String.toList_append]

theorem mem_accessorNames_iff {name : String} :
    name ∈ d.accessorNames ↔ ∃ p ∈ d.properties, p.isPublic = true ∧
      accessedName? name = some p.name := by
  simp only [accessorNames, ← PropertyDef.isPublic_eq_decide, List.mem_flatMap, List.mem_filter,
    List.mem_cons, List.not_mem_nil, or_false, accessedName?_eq_some_iff, and_assoc]

theorem isAccessor_iff {m : MethodDef} : d.isAccessor m = true ↔ d.Hides m := by
  have hname : ((accessedName? m.name).any fun name =>
      d.properties.any fun p => p.isPublic && p.name = name) = true ↔ m.name ∈ d.accessorNames := by
    rw [mem_accessorNames_iff]
    cases accessedName? m.name with
    | none => simp
    | some name =>
      simp only [Option.any_some, List.any_eq_true, Bool.and_eq_true, decide_eq_true_eq,
        Option.some.injEq, @eq_comm _ name]
  rw [isAccessor, Bool.or_eq_true, Bool.or_eq_true, isPropertyAccessor_iff, isEventAccessor_iff,
    hname, or_assoc, Hides]

/-- A method that no property and no event has to do with. -/
structure Apart (d : TypeDef) (m : MethodDef) : Prop where
  name : ∀ p ∈ d.properties, (p.SomeAccessor fun a => a.isPublic = true) →
    m.name ≠ "get_" ++ p.name ∧ m.name ≠ "set_" ++ p.name
  property : ∀ p ∈ d.properties, ∀ t, m.token = some t →
    (∀ a ∈ p.getter, a.token ≠ some t) ∧ ∀ a ∈ p.setter, a.token ≠ some t
  event : ∀ e ∈ d.events, ∀ t, m.token = some t → e.add ≠ some t ∧ e.remove ≠ some t

theorem not_mem_propertyTokens_iff {token : Option MethodToken} :
    (¬ ∃ t ∈ d.propertyTokens, token = some t) ↔
      ∀ p ∈ d.properties, ∀ t, token = some t →
        (∀ a ∈ p.getter, a.token ≠ some t) ∧ ∀ a ∈ p.setter, a.token ≠ some t := by
  simp only [mem_propertyTokens_iff, PropertyDef.hasAccessor_iff]
  constructor
  · intro h p hp t ht
    exact ⟨fun a ha hat => h ⟨t, ⟨p, hp, .inl ⟨a, ha, hat⟩⟩, ht⟩,
      fun a ha hat => h ⟨t, ⟨p, hp, .inr ⟨a, ha, hat⟩⟩, ht⟩⟩
  · rintro h ⟨t, ⟨p, hp, ⟨a, ha, hat⟩ | ⟨a, ha, hat⟩⟩, ht⟩
    · exact (h p hp t ht).1 a ha hat
    · exact (h p hp t ht).2 a ha hat

theorem not_mem_eventTokens_iff {token : Option MethodToken} :
    (¬ ∃ t ∈ d.eventTokens, token = some t) ↔
      ∀ e ∈ d.events, ∀ t, token = some t → e.add ≠ some t ∧ e.remove ≠ some t := by
  simp only [mem_eventTokens_iff, EventDef.hasAccessor, Bool.or_eq_true, decide_eq_true_eq]
  constructor
  · intro h e he t ht
    exact ⟨fun ha => h ⟨t, ⟨e, he, .inl ha⟩, ht⟩, fun hr => h ⟨t, ⟨e, he, .inr hr⟩, ht⟩⟩
  · rintro h ⟨t, ⟨e, he, hat⟩, ht⟩
    exact hat.elim (h e he t ht).1 (h e he t ht).2

theorem not_mem_accessorNames_iff {name : String} :
    name ∉ d.accessorNames ↔
      ∀ p ∈ d.properties, (p.SomeAccessor fun a => a.isPublic = true) →
        name ≠ "get_" ++ p.name ∧ name ≠ "set_" ++ p.name := by
  rw [mem_accessorNames_iff]
  simp only [accessedName?_eq_some_iff, PropertyDef.isPublic_eq_decide, decide_eq_true_eq,
    not_exists, not_and, not_or, ne_eq]

theorem apart_iff {m : MethodDef} : d.Apart m ↔ ¬ d.Hides m := by
  rw [Hides, not_or, not_or, not_mem_propertyTokens_iff, not_mem_eventTokens_iff,
    not_mem_accessorNames_iff]
  exact ⟨fun h => ⟨h.property, h.event, h.name⟩, fun ⟨hproperty, hevent, hname⟩ =>
    ⟨hname, hproperty, hevent⟩⟩

end TypeDef

end Typings
