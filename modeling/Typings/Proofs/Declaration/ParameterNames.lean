import Mathlib.Data.List.Nodup
import Typings.Declaration.Parameter

/-! # The names in a parameter list

A declared parameter keeps its own name, unless that is empty or reserved: then it is called by its
number, or has an underscore behind its name. `Named` has one constructor for each of the three, and
what two parameters of one name can be is a matter of which two constructors meet. Numbers end in a
digit and no reserved word ends in one or in an underscore, so the two kinds of new names are apart
from each other and from all reserved words. What is left is that the new name of one parameter is
the own name of another, which nothing rules out.
-/
namespace Typings

namespace Parameter

/-- How the name of a parameter is declared at an index. -/
inductive Named (index : Nat) : String → String → Prop where
  | own {name : String} (h : name ≠ "") (hr : name ∉ reservedWords) : Named index name name
  | numbered : Named index "" ("arg" ++ toString index)
  | escaped {name : String} (h : name ∈ reservedWords) : Named index name (name ++ "_")

/-! ## Last characters -/

theorem getLast?_numbered (index : Nat) :
    ∃ c, ("arg" ++ toString index).toList.getLast? = some c ∧ c.isDigit = true := by
  obtain ⟨c, hc⟩ := Option.isSome_iff_exists.mp
    (List.getLast?_isSome.mpr (Nat.toDigits_ne_nil (n := index) (b := 10)))
  refine ⟨c, ?_, Nat.isDigit_of_mem_toDigits (by decide) (by decide) (List.mem_of_getLast? hc)⟩
  rw [String.toList_append, Nat.toString_eq_repr, Nat.toList_repr, List.getLast?_append, hc]
  rfl

theorem getLast?_escaped (name : String) : (name ++ "_").toList.getLast? = some '_' := by
  simp [String.toList_append]

theorem getLast?_of_reserved {word : String} (h : word ∈ reservedWords) {c : Char}
    (hc : word.toList.getLast? = some c) : c.isDigit = false ∧ c ≠ '_' := by
  have hall : ∀ word ∈ reservedWords,
      (word.toList.getLast?.all fun c => !c.isDigit && c != '_') = true := by decide +kernel
  have hlast := hall word h
  rw [hc] at hlast
  simpa using hlast

theorem numbered_not_reserved (index : Nat) : "arg" ++ toString index ∉ reservedWords := by
  intro hmem
  obtain ⟨c, hc, hdigit⟩ := getLast?_numbered index
  rw [(getLast?_of_reserved hmem hc).1] at hdigit
  cases hdigit

theorem escaped_not_reserved (name : String) : name ++ "_" ∉ reservedWords := fun hmem =>
  (getLast?_of_reserved hmem (getLast?_escaped name)).2 rfl

theorem numbered_ne_escaped (index : Nat) (name : String) :
    "arg" ++ toString index ≠ name ++ "_" := by
  intro h
  obtain ⟨c, hc, hdigit⟩ := getLast?_numbered index
  rw [h, getLast?_escaped] at hc
  cases hc
  exact absurd hdigit (by decide)

theorem numbered_inj {i j : Nat} (h : "arg" ++ toString i = "arg" ++ toString j) : i = j := by
  have hdigits : Nat.toDigits 10 i = Nat.toDigits 10 j := by
    rw [← Nat.toList_repr, ← Nat.toList_repr, ← Nat.toString_eq_repr, ← Nat.toString_eq_repr,
      (String.append_right_inj _).mp h]
  have hvalue := congrArg (fun digits => Nat.ofDigitChars 10 digits 0) hdigits
  simpa using hvalue

/-! ## One parameter and two -/

theorem isReserved_iff {name : String} : isReserved name = true ↔ name ∈ reservedWords := by
  rw [isReserved, List.contains_iff_mem]

theorem ne_empty_of_reserved {name : String} (h : name ∈ reservedWords) : name ≠ "" := by
  rintro rfl
  revert h
  decide +kernel

theorem parameterName_numbered (index : Nat) :
    parameterName index "" = "arg" ++ toString index := by
  have hplain : ¬ isReserved ("arg" ++ toString index) = true := fun hr =>
    numbered_not_reserved index (isReserved_iff.mp hr)
  rw [parameterName, if_pos (String.isEmpty_iff.mpr rfl), if_neg hplain]

theorem parameterName_escaped (index : Nat) {name : String} (h : name ∈ reservedWords) :
    parameterName index name = name ++ "_" := by
  rw [parameterName, if_neg (mt String.isEmpty_iff.mp (ne_empty_of_reserved h)),
    if_pos (isReserved_iff.mpr h)]

theorem parameterName_own (index : Nat) {name : String} (h : name ≠ "")
    (hr : name ∉ reservedWords) : parameterName index name = name := by
  rw [parameterName, if_neg (mt String.isEmpty_iff.mp h), if_neg (mt isReserved_iff.mp hr)]

theorem named_parameterName (index : Nat) (name : String) :
    Named index name (parameterName index name) := by
  by_cases hempty : name = ""
  · subst hempty
    rw [parameterName_numbered]
    exact .numbered
  · by_cases hr : name ∈ reservedWords
    · rw [parameterName_escaped index hr]
      exact .escaped hr
    · rw [parameterName_own index hempty hr]
      exact .own hempty hr

theorem Named.not_reserved {index : Nat} {name declared : String} (h : Named index name declared) :
    declared ∉ reservedWords := by
  cases h with
  | own _ hr => exact hr
  | numbered => exact numbered_not_reserved index
  | escaped => exact escaped_not_reserved name

/-- The one parameter is called by its number or has an underscore put behind its name, and that is
how the other is called anyway. -/
inductive Takes (index : Nat) : String → String → Prop where
  | numbered : Takes index "" ("arg" ++ toString index)
  | escaped {word : String} (h : word ∈ reservedWords) : Takes index word (word ++ "_")

/-- Two parameters are declared by one name when they have one name, without which only their
numbers can be the same, or when the one takes the name of the other. -/
theorem Named.meet {i j : Nat} {a b declared : String} (ha : Named i a declared)
    (hb : Named j b declared) : a = b ∧ (a = "" → i = j) ∨ Takes i a b ∨ Takes j b a := by
  cases ha with
  | own hne hr =>
    cases hb with
    | own => exact .inl ⟨rfl, fun he => absurd he hne⟩
    | numbered => exact .inr (.inr .numbered)
    | escaped hw => exact .inr (.inr (.escaped hw))
  | numbered =>
    generalize he : "arg" ++ toString i = declared at hb
    cases hb with
    | own => subst he; exact .inr (.inl .numbered)
    | numbered => exact .inl ⟨rfl, fun _ => numbered_inj he⟩
    | escaped => exact absurd he (numbered_ne_escaped i b)
  | escaped hw =>
    generalize he : a ++ "_" = declared at hb
    cases hb with
    | own => subst he; exact .inr (.inl (.escaped hw))
    | numbered => exact absurd he.symm (numbered_ne_escaped j a)
    | escaped hw' =>
      obtain rfl := (String.append_left_inj "_").mp he
      exact .inl ⟨rfl, fun hempty => absurd hempty (ne_empty_of_reserved hw)⟩

/-- Taking the name of another parameter leads to one declared name for both. -/
theorem Takes.declared_eq {i : Nat} {a b : String} (h : Takes i a b) (j : Nat) :
    a ≠ b ∧ parameterName i a = parameterName j b := by
  cases h with
  | numbered =>
    have hne : "arg" ++ toString i ≠ "" := by
      intro h
      have hlen := congrArg String.length h
      rw [String.length_append] at hlen
      exact absurd (Nat.add_eq_zero_iff.mp hlen).1 (by decide)
    exact ⟨hne.symm, by
      rw [parameterName_numbered, parameterName_own j hne (numbered_not_reserved i)]⟩
  | escaped hw =>
    have hne : a ++ "_" ≠ "" := by
      intro h
      have hlast := getLast?_escaped a
      rw [h] at hlast
      cases hlast
    have hself : a ≠ a ++ "_" := by
      intro h
      have hlen := congrArg String.length h
      rw [String.length_append] at hlen
      exact absurd hlen (by simp)
    exact ⟨hself, by
      rw [parameterName_escaped i hw, parameterName_own j hne (escaped_not_reserved a)]⟩

/-! ## Lists -/

theorem nodup_zipIdx {α : Type} (l : List α) : l.zipIdx.Nodup := by
  refine List.Nodup.of_map Prod.snd ?_
  rw [List.zipIdx_map_snd]
  exact List.nodup_range' 1

/-- Where no name but the empty one is given twice, an entry is known by its name. -/
theorem eq_of_name_eq {names : List String} (h : (names.filter (· ≠ "")).Nodup)
    {x y : String × Nat} (hx : x ∈ names.zipIdx) (hy : y ∈ names.zipIdx) (hname : x.1 = y.1)
    (hne : x.1 ≠ "") : x = y := by
  have hnodup : ((names.zipIdx.filter fun x => x.1 ≠ "").map Prod.fst).Nodup := by
    have hfilter := List.filter_map (f := Prod.fst) (p := (· ≠ "")) (l := names.zipIdx)
    rw [List.zipIdx_map_fst] at hfilter
    rw [hfilter] at h
    exact h
  exact List.inj_on_of_nodup_map hnodup (List.mem_filter.mpr ⟨hx, by simpa using hne⟩)
    (List.mem_filter.mpr ⟨hy, by simpa [← hname] using hne⟩) hname

/-- Declared names are all different exactly when no parameter takes the name of another. -/
theorem nodup_parameterName_iff {names : List String} (h : (names.filter (· ≠ "")).Nodup) :
    (names.zipIdx.map fun x => parameterName x.2 x.1).Nodup ↔
      ∀ x ∈ names.zipIdx, ∀ y ∈ names.zipIdx, ¬ Takes x.2 x.1 y.1 := by
  rw [List.nodup_map_iff_inj_on (nodup_zipIdx names)]
  constructor
  · intro hinj x hx y hy htakes
    obtain ⟨hne, heq⟩ := htakes.declared_eq y.2
    exact hne (congrArg Prod.fst (hinj x hx y hy heq))
  · intro hnone x hx y hy heq
    have hy' := named_parameterName y.2 y.1
    rw [← heq] at hy'
    rcases (named_parameterName x.2 x.1).meet hy' with ⟨hname, hindex⟩ | htakes | htakes
    · by_cases hempty : x.1 = ""
      · exact Prod.ext hname (hindex hempty)
      · exact eq_of_name_eq h hx hy hname hempty
    · exact absurd htakes (hnone x hx y hy)
    · exact absurd htakes (hnone y hy x hx)

end Parameter

namespace TypeGraph

open Parameter (Takes named_parameterName nodup_parameterName_iff)

theorem name_parameter (g : TypeGraph) (owner : Descriptor) (index : Nat) (p : ParamDef) :
    (g.parameter owner index p).name = parameterName index p.name := by
  rw [parameter]
  repeat' split
  all_goals rfl

theorem names_parameters (g : TypeGraph) (owner : Descriptor) (params : List ParamDef) :
    (g.parameters owner params).map Parameter.name =
      (params.map ParamDef.name).zipIdx.map fun x => parameterName x.2 x.1 := by
  rw [parameters, List.map_map, List.zipIdx_map, List.map_map]
  exact List.map_congr_left fun x _ => g.name_parameter owner x.2 x.1

/-- No parameter is declared by a reserved word. If no two parameters have one name of their own,
the empty one apart, then their declared names are all different exactly when no parameter is called
by the name that another is given: by a reserved word of the list with an underscore behind it, or
by the number of a nameless one. -/
theorem declared_parameter_names_nodup_iff (g : TypeGraph) (owner : Descriptor)
    (params : List ParamDef) (h : ((params.map ParamDef.name).filter (· ≠ "")).Nodup) :
    let given := params.map ParamDef.name
    let declared := (g.parameters owner params).map Parameter.name
    (∀ name ∈ declared, name ∉ reservedWords) ∧
      (declared.Nodup ↔ (∀ word ∈ reservedWords, word ∈ given → word ++ "_" ∉ given) ∧
        ∀ i : Nat, given[i]? = some "" → "arg" ++ toString i ∉ given) := by
  intro given declared
  have hdeclared : declared = given.zipIdx.map fun x => parameterName x.2 x.1 :=
    g.names_parameters owner params
  have hmem : ∀ {name}, name ∈ given → ∃ i, (name, i) ∈ given.zipIdx := by
    intro name hname
    obtain ⟨i, hi⟩ := List.mem_iff_getElem?.mp hname
    exact ⟨i, List.mem_zipIdx_iff_getElem?.mpr hi⟩
  rw [hdeclared, nodup_parameterName_iff h]
  refine ⟨?_, ?_, ?_⟩
  · intro name hname
    obtain ⟨x, -, rfl⟩ := List.mem_map.mp hname
    exact (named_parameterName x.2 x.1).not_reserved
  · intro hnone
    refine ⟨fun word hr hword hescaped => ?_, fun i hi hnumbered => ?_⟩
    · obtain ⟨i, hi⟩ := hmem hword
      obtain ⟨j, hj⟩ := hmem hescaped
      exact hnone _ hi _ hj (.escaped hr)
    · obtain ⟨j, hj⟩ := hmem hnumbered
      exact hnone ("", i) (List.mem_zipIdx_iff_getElem?.mpr hi) _ hj .numbered
  · rintro ⟨hescaped, hnumbered⟩ ⟨a, i⟩ hx ⟨b, j⟩ hy htakes
    have hb : b ∈ given := List.mem_of_getElem? (List.mem_zipIdx_iff_getElem?.mp hy)
    cases htakes with
    | numbered => exact hnumbered i (List.mem_zipIdx_iff_getElem?.mp hx) hb
    | escaped hw =>
      exact hescaped _ hw (List.mem_of_getElem? (List.mem_zipIdx_iff_getElem?.mp hx)) hb

theorem declared_parameter_names_nodup :
    let params : List ParamDef := [⟨"", .void, false, false⟩, ⟨"in", .void, false, false⟩,
      ⟨"arg1", .void, false, false⟩, ⟨"", .void, false, false⟩]
    ((params.map ParamDef.name).filter (· ≠ "")).Nodup ∧
      ((empty.parameters (.of { name := "T" }) params).map Parameter.name).Nodup := by
  intro params
  have h : ((params.map ParamDef.name).filter (· ≠ "")).Nodup := by decide +kernel
  have hnumbered : ∀ i < 4, (params.map ParamDef.name)[i]? = some "" →
      "arg" ++ toString i ∉ params.map ParamDef.name := by decide +kernel
  refine ⟨h, (declared_parameter_names_nodup_iff empty (.of { name := "T" }) params h).2.mpr
    ⟨by decide +kernel, fun i hi => hnumbered i ?_ hi⟩⟩
  exact (List.getElem?_eq_some_iff.mp hi).1

/-- Names that differ are declared alike where one of them is a reserved word and the other that
word with an underscore, and where one is empty and the other its number. -/
theorem new_name_meets_given_name :
    let word : List ParamDef :=
      [⟨"class", .void, false, false⟩, ⟨"class_", .void, false, false⟩]
    let number : List ParamDef := [⟨"arg1", .void, false, false⟩, ⟨"", .void, false, false⟩]
    let declared := fun params =>
      (empty.parameters (.of { name := "T" }) params).map Parameter.name
    (((word.map ParamDef.name).filter (· ≠ "")).Nodup ∧ ¬ (declared word).Nodup) ∧
      ((number.map ParamDef.name).filter (· ≠ "")).Nodup ∧ ¬ (declared number).Nodup := by
  intro word number declared
  have hword : declared word = ["class_", "class_"] := by
    rw [show declared word = _ from empty.names_parameters _ word]
    decide +kernel
  have hnumber : declared number = ["arg1", "arg1"] := by
    rw [show declared number = _ from empty.names_parameters _ number]
    decide +kernel
  rw [hword, hnumber]
  decide +kernel

end TypeGraph

end Typings
