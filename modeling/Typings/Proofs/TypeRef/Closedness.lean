import Mathlib.Data.List.Forall2
import Typings.Proofs.Graph.Growth
import Typings.Proofs.TypeRef.Errors

/-! # Closed references and their texts

A reference is closed when it holds no generic parameter, and in its text a parameter shows by its
mark: no name and no other part of a reference has that character (`Phrase.isClosed_iff`). The same
goes for each argument of a constructed type. The arguments are found in the text alone, between the
outer angle brackets and cut at the commas that stand outside of all further brackets: no derivation
has such a comma (`Phrase.passes`), so the pieces are the texts of the arguments.
-/
namespace Typings.TypeRef

open Typings.Text (isBlank)

/-! ## Arguments in a text -/

/-- The pieces of a text between the commas outside of all brackets; some brackets may be open in
front of it. -/
def splitOutside : List Char → List Char → List (List Char)
  | _, [] => [[]]
  | before, c :: cs =>
    if c = ',' && before.isEmpty then [] :: splitOutside before cs
    else (splitOutside (bracketsAfter before c) cs).modifyHead (c :: ·)

/-- What stands between the first opening angle bracket of a text and the last closing one. -/
def betweenAngles (cs : List Char) : List Char :=
  beforeLast '>' ((cs.dropWhile (· ≠ '<')).drop 1)

/-- The texts of the arguments of a constructed type. -/
def argumentTexts (s : String) : List String :=
  if '<' ∈ s.toList then (splitOutside [] (betweenAngles s.toList)).map String.ofList else []

variable {before after last cs ds : List Char} {c : Char}

/-- Splitting goes over a text without a cut, whatever follows, and has other brackets open behind
it. -/
def Passes (before cs after : List Char) : Prop :=
  ∀ rest, splitOutside before (cs ++ rest) = (splitOutside after rest).modifyHead (cs ++ ·)

theorem Passes.refl (before : List Char) : Passes before [] before := by
  intro rest
  exact (congrFun List.modifyHead_id _).symm

theorem Passes.trans (h : Passes before cs after) (h' : Passes after ds last) :
    Passes before (cs ++ ds) last := by
  intro rest
  rw [List.append_assoc, h, h', List.modifyHead_modifyHead]
  simp [Function.comp_def]

theorem Passes.cons (hc : c ≠ ',' ∨ before ≠ []) (h : Passes (bracketsAfter before c) cs after) :
    Passes before (c :: cs) after := by
  intro rest
  have huncut : ¬ (c = ',' && before.isEmpty) = true := by
    simpa [Decidable.imp_iff_not_or] using hc
  rw [List.cons_append, splitOutside, if_neg huncut, h, List.modifyHead_modifyHead]
  rfl

theorem not_mem_of_class {P : Char → Bool} (hP : P c = false) (hcs : ∀ d ∈ cs, P d = true) :
    c ∉ cs :=
  fun hmem => ne_of_class (hcs c hmem) hP rfl

/-- Characters of a class that has no bracket and no comma. -/
theorem passes_of_class {P : Char → Bool} (hP : ['<', '[', '>', ']'].any P = false)
    (hcomma : P ',' = false) (hcs : ∀ c ∈ cs, P c = true) : Passes before cs before := by
  induction cs with
  | nil => exact .refl before
  | cons c cs ih =>
    have hc := hcs c List.mem_cons_self
    refine .cons (.inl (ne_of_class hc hcomma)) ?_
    rw [Progress.bracketsAfter_of_class hc hP]
    exact ih fun d hd => hcs d (List.mem_cons_of_mem _ hd)

theorem Blanks.passes (b : Blanks) : Passes before b.chars before :=
  passes_of_class (by decide) (by decide) b.all_blank

theorem Name.passes (name : Name) : Passes before name.chars before :=
  passes_of_class (by decide) (by decide) name.all_name

theorem Suffix.passes (s : Suffix) : Passes before s.chars before := by
  cases s with
  | array commas =>
    have hcommas : Passes ('[' :: before) (List.replicate commas ',') ('[' :: before) := by
      induction commas with
      | zero => exact .refl _
      | succ commas ih => exact .cons (.inr (List.cons_ne_nil _ _)) ih
    exact .cons (.inl (by decide)) (hcommas.trans (.cons (.inl (by decide)) (.refl before)))
  | byRef => exact .cons (.inl (by decide)) (.refl before)
  | pointer => exact .cons (.inl (by decide)) (.refl before)

theorem passes_suffixes (suffixes : List Suffix) :
    Passes before (suffixes.flatMap Suffix.chars) before := by
  induction suffixes with
  | nil => exact .refl before
  | cons s suffixes ih => exact s.passes.trans ih

mutual

/-- The commas of a derivation stand in brackets that it opens and closes. -/
theorem Phrase.passes : ∀ (p : Phrase) (before : List Char), Passes before p.chars before
  | .mk lead core suffixes trail, before =>
    lead.passes.trans ((Core.passes core before).trans ((passes_suffixes suffixes).trans trail.passes))

theorem Core.passes : ∀ (core : Core) (before : List Char), Passes before core.chars before
  | .param name, before => .cons (.inl (by decide)) name.passes
  | .named name [], before => name.passes.trans (.refl before)
  | .named name (arg :: args), before =>
    name.passes.trans (.cons (.inl (by decide))
      ((Phrase.passes arg ('<' :: before)).trans (Phrase.passes_more args before)))

theorem Phrase.passes_more : ∀ (args : List Phrase) (before : List Char),
    Passes ('<' :: before) (Phrase.moreChars args) before
  | [], before => .cons (.inl (by decide)) (.refl before)
  | arg :: args, before =>
    .cons (.inr (List.cons_ne_nil _ _))
      ((Phrase.passes arg ('<' :: before)).trans (Phrase.passes_more args before))

end

/-- Texts of derivations with a comma between each two are split into these texts. -/
theorem splitOutside_phrases (arg : Phrase) (args : List Phrase) :
    splitOutside [] (arg.chars ++ args.flatMap fun arg => ',' :: arg.chars) =
      (arg :: args).map Phrase.chars := by
  induction args generalizing arg with
  | nil => simpa [splitOutside] using arg.passes [] []
  | cons next args ih =>
    rw [arg.passes, List.flatMap_cons, List.cons_append, splitOutside, if_pos (by decide), ih]
    simp

theorem Phrase.moreChars_eq (args : List Phrase) :
    Phrase.moreChars args = (args.flatMap fun arg => ',' :: arg.chars) ++ ['>'] := by
  induction args with
  | nil => rfl
  | cons arg args ih => simp [Phrase.moreChars, ih]

theorem decide_ne_of_not_mem {mark : Char} (h : mark ∉ cs) : ∀ c ∈ cs, decide (c ≠ mark) = true :=
  fun _ hc => decide_eq_true fun he => h (he ▸ hc)

theorem beforeLast_append {mark : Char} {front back : List Char} (h : mark ∉ back) :
    beforeLast mark (front ++ mark :: back) = front := by
  have hmem : mark ∈ front ++ mark :: back := by simp
  have hback : mark ∉ back.reverse := by rwa [List.mem_reverse]
  rw [beforeLast, if_pos hmem, List.reverse_append, List.reverse_cons, List.append_assoc,
    List.dropWhile_append_of_pos (decide_ne_of_not_mem hback)]
  simp

theorem betweenAngles_eq {front inner back : List Char} (hfront : '<' ∉ front) (hback : '>' ∉ back) :
    betweenAngles (front ++ '<' :: (inner ++ '>' :: back)) = inner := by
  rw [betweenAngles, List.dropWhile_append_of_pos (decide_ne_of_not_mem hfront)]
  exact beforeLast_append hback

/-- The arguments of a constructed type are found in its text. -/
theorem argumentTexts_eq {s : String} {lead trail : Blanks} {name : Name} {args : List Phrase}
    (h : (Phrase.mk lead (.named name args) [] trail).chars = s.toList) :
    argumentTexts s = args.map fun arg => String.ofList arg.chars := by
  have hlead : '<' ∉ lead.chars := not_mem_of_class (by decide) lead.all_blank
  have hname : '<' ∉ name.chars := not_mem_of_class (by decide) name.all_name
  cases args with
  | nil =>
    have htrail : '<' ∉ trail.chars := not_mem_of_class (by decide) trail.all_blank
    have hnone : '<' ∉ s.toList := by
      rw [← h]
      simp [Phrase.chars, Core.chars, Phrase.argChars, hlead, hname, htrail]
    rw [argumentTexts, if_neg hnone, List.map_nil]
  | cons arg args =>
    have htext : s.toList = (lead.chars ++ name.chars) ++
        '<' :: ((arg.chars ++ args.flatMap fun arg => ',' :: arg.chars) ++ '>' :: trail.chars) := by
      rw [← h]
      simp [Phrase.chars, Core.chars, Phrase.argChars, Phrase.moreChars_eq]
    have hfront : '<' ∉ lead.chars ++ name.chars := by simp [hlead, hname]
    have hclose : '>' ∉ trail.chars := not_mem_of_class (by decide) trail.all_blank
    have hopen : '<' ∈ s.toList := by
      rw [htext]
      simp
    rw [argumentTexts, if_pos hopen, htext, betweenAngles_eq hfront hclose, splitOutside_phrases,
      List.map_map]
    rfl

/-! ## The mark of a parameter -/

theorem isClosed_apply (ty : TypeRef) (s : Suffix) :
    (s.apply ty).isClosed = ty.isClosed := by
  cases s <;> rfl

theorem isClosed_foldl_apply (suffixes : List Suffix) (ty : TypeRef) :
    (suffixes.foldl Suffix.apply ty).isClosed = ty.isClosed := by
  induction suffixes generalizing ty with
  | nil => rfl
  | cons s suffixes ih => rw [List.foldl_cons, ih, isClosed_apply]

theorem Suffix.bang_not_mem (s : Suffix) : '!' ∉ s.chars := by
  cases s <;> simp [Suffix.chars]

mutual

/-- A derivation stands for a closed reference exactly when it spells no mark of a parameter. -/
theorem Phrase.isClosed_iff : ∀ p : Phrase, p.tree.isClosed = true ↔ '!' ∉ p.chars
  | .mk lead core suffixes trail => by
    have hlead := not_mem_of_class (c := '!') (by decide) lead.all_blank
    have htrail := not_mem_of_class (c := '!') (by decide) trail.all_blank
    have hsuffixes : '!' ∉ suffixes.flatMap Suffix.chars := by
      intro hmem
      obtain ⟨s, -, hs⟩ := List.mem_flatMap.mp hmem
      exact s.bang_not_mem hs
    rw [Phrase.tree, isClosed_foldl_apply, Core.isClosed_iff core, Phrase.chars]
    simp only [List.mem_append, hlead, hsuffixes, htrail, false_or, or_false]

theorem Core.isClosed_iff : ∀ core : Core, core.tree.isClosed = true ↔ '!' ∉ core.chars
  | .param name => by simp [Core.tree, Core.chars, isClosed]
  | .named name [] => by
    have hname := not_mem_of_class (c := '!') (by decide) name.all_name
    simp [Core.tree, Core.chars, Phrase.trees, Phrase.argChars, isClosed, allClosed, hname]
  | .named name (arg :: args) => by
    have hname := not_mem_of_class (c := '!') (by decide) name.all_name
    simp [Core.tree, Core.chars, Phrase.trees, Phrase.argChars, isClosed, allClosed, hname,
      Phrase.isClosed_iff arg, Phrase.allClosed_iff args]

theorem Phrase.allClosed_iff : ∀ args : List Phrase,
    allClosed (Phrase.trees args) = true ↔ '!' ∉ Phrase.moreChars args
  | [] => by simp [Phrase.trees, Phrase.moreChars, allClosed]
  | arg :: args => by
    simp [Phrase.trees, Phrase.moreChars, allClosed, Phrase.isClosed_iff arg,
      Phrase.allClosed_iff args]

end

theorem isClosed_iff_of_ofText {s : String} {t : TypeRef} (h : ofText s = .ok t) :
    t.isClosed = true ↔ '!' ∉ s.toList := by
  obtain ⟨p, hp, rfl⟩ := ofText_eq_ok_iff.mp h
  rw [p.isClosed_iff, hp]

/-- A suffix makes a reference that is no named type. -/
theorem suffixes_eq_nil {suffixes : List Suffix} {ty : TypeRef} {name : String}
    {args : List TypeRef} (h : suffixes.foldl Suffix.apply ty = .named name args) :
    suffixes = [] := by
  rcases List.eq_nil_or_concat suffixes with hnil | ⟨init, s, rfl⟩
  · exact hnil
  · rw [List.concat_eq_append, List.foldl_concat] at h
    cases s <;> cases h

/-- The texts of the arguments, each read as the argument that it is. -/
theorem forall₂_argumentTexts {s name : String} {args : List TypeRef}
    (h : ofText s = .ok (.named name args)) :
    List.Forall₂ (fun text arg => ofText text = .ok arg) (argumentTexts s) args := by
  obtain ⟨⟨lead, core, suffixes, trail⟩, hp, ht⟩ := ofText_eq_ok_iff.mp h
  cases suffixes_eq_nil ht
  cases core with
  | param name => cases ht
  | named name phrases =>
    cases ht
    rw [argumentTexts_eq hp, Phrase.trees_eq_map, List.forall₂_map_left_iff,
      List.forall₂_map_right_iff, List.forall₂_same]
    intro arg _
    exact ofText_eq_ok_of_phrase arg (by simp)

example : argumentTexts "D`3<L`1<!T>[,], int,!U > " = ["L`1<!T>[,]", " int", "!U "] := by
  decide +kernel

/-- An argument is closed exactly when the text of one is without marks. -/
theorem any_isClosed_iff {texts : List String} {args : List TypeRef}
    (h : List.Forall₂ (fun text arg => ofText text = .ok arg) texts args) :
    args.any isClosed = true ↔ ∃ text ∈ texts, '!' ∉ text.toList := by
  induction h with
  | nil => simp
  | cons hread _ ih =>
    rw [List.any_cons, Bool.or_eq_true, ih, isClosed_iff_of_ofText hread]
    simp

/-- Closedness can be read off the text. A reference is closed exactly when its text has no mark of
a parameter. The texts of the arguments of a constructed type stand between its outer angle
brackets, cut at the outer commas, and each is read as its argument; so one of the arguments is
closed exactly when one of these texts has no mark, and this is what keeps a definition out as a
closed generic that is otherwise new. -/
theorem closedness_in_text {s : String} {t : TypeRef} (h : ofText s = .ok t) :
    (t.isClosed = true ↔ '!' ∉ s.toList) ∧
      ∀ name args, t = .named name args →
        List.Forall₂ (fun text arg => ofText text = .ok arg) (argumentTexts s) args ∧
          (args.any isClosed = true ↔ ∃ text ∈ argumentTexts s, '!' ∉ text.toList) ∧
          ∀ (g : TypeGraph) (d : TypeDef), g.rejection? d args = some .closedGeneric ↔
            d.fullName ≠ rootType ∧ g.contains d.fullName = false ∧ d.isNested = false ∧
              ((∃ text ∈ argumentTexts s, '!' ∉ text.toList) ∨
                d.genericArgs.any isClosed = true) := by
  refine ⟨isClosed_iff_of_ofText h, ?_⟩
  intro name args ht
  subst ht
  have hreads := forall₂_argumentTexts h
  refine ⟨hreads, any_isClosed_iff hreads, fun g d => ?_⟩
  rw [TypeGraph.rejection?_eq_closedGeneric_iff, List.any_append, Bool.or_eq_true,
    any_isClosed_iff hreads]

/-- Arguments with commas and brackets of their own, a parameter deep inside, and a closed one. -/
theorem closedness_in_nested_text :
    let s := "D`3<L`1<!T>[,], int , E`2<int,!T&> >"
    let args : List TypeRef := [.array (.named "L`1" [.param "T"]) 2, .named "int" [],
      .named "E`2" [.named "int" [], .byRef (.param "T")]]
    ofText s = .ok (.named "D`3" args) ∧
      ((TypeRef.named "D`3" args).isClosed = true ↔ '!' ∉ s.toList) ∧
      (args.any isClosed = true ↔ ∃ text ∈ argumentTexts s, '!' ∉ text.toList) := by
  intro s args
  have hread : ofText s = .ok (.named "D`3" args) := by
    simp only [s, args]
    rfl
  obtain ⟨hclosed, hargs⟩ := closedness_in_text hread
  exact ⟨hread, hclosed, (hargs _ _ rfl).2.1⟩

end Typings.TypeRef
