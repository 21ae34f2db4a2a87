import Typings.Proofs.TypeRef.Language

/-! # Writing and reading references

A reference whose names are names and whose ranks are positive is written as a text with a
derivation, so it is read back. Nothing else is: what is read has only names and ranks of that
kind. A text and the written form of what it is read as differ in their blanks only, because the
written form has the marks and the names of the derivation in the same order.
-/
namespace Typings.TypeRef

open Typings.Text (isBlank)

/-- A text that can stand as a name in a written reference. -/
def IsName (s : String) : Prop := s ≠ "" ∧ ∀ c ∈ s.toList, isNameChar c = true

/-- Every name is one that can be written, and every rank is at least 1. -/
structure WellFormed (t : TypeRef) : Prop where
  names : ∀ n ∈ t.names, IsName n
  ranks : ∀ r ∈ t.ranks, 1 ≤ r

/-- A text without its blanks. -/
def unblank (s : String) : String := String.ofList (s.toList.filter fun c => !isBlank c)

theorem Name.isName_text (name : Name) : IsName name.text := by
  constructor
  · intro h
    refine name.ne_nil ?_
    simpa [Name.text] using congrArg String.toList h
  · intro c hc
    exact name.all_name c (by simpa [Name.text] using hc)

theorem IsName.exists_name {s : String} (h : IsName s) : ∃ name : Name, name.text = s := by
  refine ⟨⟨s.toList, ?_, h.2⟩, String.ofList_toList⟩
  intro he
  exact h.1 (String.toList_inj.mp he)

theorem Phrase.wellFormed_tree (p : Phrase) : p.tree.WellFormed := by
  constructor
  · intro n hn
    obtain ⟨name, rfl⟩ := p.exists_name_of_mem hn
    exact name.isName_text
  · intro r hr
    exact (p.rank_of_mem hr).1

/-! ## The derivation of a written form -/

theorem chars_apply (ty : TypeRef) (s : Suffix) : (s.apply ty).chars = ty.chars ++ s.chars := by
  cases s <;> simp [Suffix.apply, Suffix.chars, chars]

theorem chars_foldl_apply (suffixes : List Suffix) (ty : TypeRef) :
    (suffixes.foldl Suffix.apply ty).chars = ty.chars ++ suffixes.flatMap Suffix.chars := by
  induction suffixes generalizing ty with
  | nil => simp
  | cons s suffixes ih => rw [List.foldl_cons, ih, chars_apply, List.flatMap_cons, List.append_assoc]

/-- The written form has a derivation with no blanks around it. -/
def Derivable (t : TypeRef) : Prop :=
  ∃ (core : Core) (suffixes : List Suffix),
    core.chars ++ suffixes.flatMap Suffix.chars = t.chars ∧
      suffixes.foldl Suffix.apply core.tree = t

theorem Derivable.apply {ty : TypeRef} (h : ty.Derivable) (s : Suffix) : (s.apply ty).Derivable := by
  obtain ⟨core, suffixes, hchars, htree⟩ := h
  refine ⟨core, suffixes ++ [s], ?_, by simp [htree]⟩
  rw [chars_apply, ← hchars]
  simp

theorem Derivable.exists_phrase {t : TypeRef} (h : t.Derivable) (lead : Blanks) :
    ∃ p : Phrase, p.chars = lead.chars ++ t.chars ∧ p.tree = t := by
  obtain ⟨core, suffixes, hchars, htree⟩ := h
  refine ⟨.mk lead core suffixes .none, ?_, htree⟩
  rw [Phrase.chars, ← hchars]
  simp [Blanks.none]

def Blanks.space : Blanks := ⟨[' '], List.forall_mem_singleton.mpr rfl⟩

mutual

theorem derivable : ∀ t : TypeRef, (∀ n ∈ t.names, IsName n) → (∀ r ∈ t.ranks, 1 ≤ r) →
    t.Derivable
  | .named n [], hn, hr => by
    obtain ⟨name, rfl⟩ := (hn n List.mem_cons_self).exists_name
    exact ⟨.named name [], [], by simp [Core.chars, Phrase.argChars, chars, Name.text], rfl⟩
  | .named n (arg :: args), hn, hr => by
    obtain ⟨name, rfl⟩ := (hn n List.mem_cons_self).exists_name
    have hnames : ∀ m ∈ namesAll (arg :: args), IsName m :=
      fun m hm => hn m (List.mem_cons_of_mem _ hm)
    have harg := derivable arg (fun m hm => hnames m (List.mem_append_left _ hm))
      (fun r h => hr r (List.mem_append_left _ h))
    obtain ⟨p, hp, hpt⟩ := harg.exists_phrase .none
    obtain ⟨ps, hps, hpst⟩ := exists_phrases args
      (fun m hm => hnames m (List.mem_append_right _ hm))
      (fun r h => hr r (List.mem_append_right _ h))
    refine ⟨.named name (p :: ps), [], ?_, ?_⟩
    · simp [Core.chars, Phrase.argChars, chars, Name.text, Blanks.none, hp, hps]
    · simp [Core.tree, Phrase.trees, hpt, hpst]
  | .param n, hn, hr => by
    obtain ⟨name, rfl⟩ := (hn n List.mem_cons_self).exists_name
    exact ⟨.param name, [], by simp [Core.chars, chars, Name.text], rfl⟩
  | .array element rank, hn, hr => by
    have helement := derivable element hn (fun r h => hr r (List.mem_cons_of_mem _ h))
    -- A rank of 0 would need less than no comma.
    obtain ⟨commas, rfl⟩ := Nat.exists_eq_add_of_le' (hr rank List.mem_cons_self)
    exact helement.apply (.array commas)
  | .byRef element, hn, hr => (derivable element hn hr).apply .byRef
  | .pointer element, hn, hr => (derivable element hn hr).apply .pointer

/-- The arguments after the first stand behind a comma and a space each. -/
theorem exists_phrases : ∀ args : List TypeRef, (∀ n ∈ namesAll args, IsName n) →
    (∀ r ∈ ranksAll args, 1 ≤ r) →
      ∃ ps : List Phrase, Phrase.moreChars ps = argChars args ∧ Phrase.trees ps = args
  | [], hn, hr => ⟨[], rfl, rfl⟩
  | arg :: args, hn, hr => by
    have harg := derivable arg (fun m hm => hn m (List.mem_append_left _ hm))
      (fun r h => hr r (List.mem_append_left _ h))
    obtain ⟨p, hp, hpt⟩ := harg.exists_phrase .space
    obtain ⟨ps, hps, hpst⟩ := exists_phrases args
      (fun m hm => hn m (List.mem_append_right _ hm))
      (fun r h => hr r (List.mem_append_right _ h))
    refine ⟨p :: ps, ?_, by simp [Phrase.trees, hpt, hpst]⟩
    simp [Phrase.moreChars, argChars, Blanks.space, hp, hps]

end

/-- A reference is read back from its written form exactly when it is well-formed. -/
theorem ofText_text_iff {t : TypeRef} : ofText t.text = .ok t ↔ t.WellFormed := by
  rw [ofText_eq_ok_iff]
  constructor
  · intro h
    obtain ⟨p, -, rfl⟩ := h
    exact p.wellFormed_tree
  · intro h
    obtain ⟨p, hp, ht⟩ := (derivable t h.names h.ranks).exists_phrase .none
    exact ⟨p, by rw [hp, toList_text]; rfl, ht⟩

/-! ## Blanks -/

theorem Blanks.filter_chars (b : Blanks) : b.chars.filter (fun c => !isBlank c) = [] := by
  rw [List.filter_eq_nil_iff]
  intro c hc
  simp [b.all_blank c hc]

mutual

/-- A derivation and the written form of its reference have the same characters but blanks. -/
theorem Phrase.filter_chars : ∀ p : Phrase,
    p.chars.filter (fun c => !isBlank c) = p.tree.chars.filter (fun c => !isBlank c)
  | .mk lead core suffixes trail => by
    rw [Phrase.chars, Phrase.tree, chars_foldl_apply]
    simp only [List.filter_append, lead.filter_chars, trail.filter_chars, Core.filter_chars core,
      List.nil_append, List.append_nil]

theorem Core.filter_chars : ∀ core : Core,
    core.chars.filter (fun c => !isBlank c) = core.tree.chars.filter (fun c => !isBlank c)
  | .param name => by simp [Core.chars, Core.tree, chars, Name.text]
  | .named name [] => by
    simp [Core.chars, Core.tree, Phrase.argChars, Phrase.trees, chars, Name.text]
  | .named name (arg :: args) => by
    have hopen : (!isBlank '<') = true := rfl
    rw [Core.chars, Core.tree, Phrase.argChars, Phrase.trees, chars]
    simp only [List.filter_append, List.filter_cons, hopen, if_true, Phrase.filter_chars arg,
      Phrase.filter_moreChars args, Name.text, String.toList_ofList]

theorem Phrase.filter_moreChars : ∀ args : List Phrase,
    (Phrase.moreChars args).filter (fun c => !isBlank c) =
      (argChars (Phrase.trees args)).filter (fun c => !isBlank c)
  | [] => rfl
  | arg :: args => by
    have hcomma : (!isBlank ',') = true := rfl
    have hspace : (!isBlank ' ') = false := rfl
    rw [Phrase.moreChars, Phrase.trees, argChars]
    simp only [List.filter_append, List.filter_cons, hcomma, hspace, if_true, Bool.false_eq_true,
      if_false, Phrase.filter_chars arg, Phrase.filter_moreChars args]

end

theorem unblank_text_of_ofText {s : String} {t : TypeRef} (h : ofText s = .ok t) :
    unblank s = unblank t.text := by
  obtain ⟨p, hp, rfl⟩ := ofText_eq_ok_iff.mp h
  rw [unblank, unblank, ← hp, toList_text, p.filter_chars]

/-- Reading undoes writing for the well-formed references and for no others, and only those are
ever read. A text and the written form of its reference are the same but for blanks, so writing
what was read is a normal form, which is read and written again as it stands. -/
theorem text_round_trip :
    (∀ t : TypeRef, ofText t.text = .ok t ↔ t.WellFormed) ∧
      ∀ (s : String) (t : TypeRef), ofText s = .ok t →
        t.WellFormed ∧ unblank s = unblank t.text ∧ (ofText t.text).map text = .ok t.text := by
  refine ⟨fun t => ofText_text_iff, ?_⟩
  intro s t h
  obtain ⟨p, -, rfl⟩ := ofText_eq_ok_iff.mp h
  have hread := ofText_text_iff.mpr p.wellFormed_tree
  exact ⟨p.wellFormed_tree, unblank_text_of_ofText h, by rw [hread]; rfl⟩

example : (ofText " A`2<\tint[,] ,!T&> ").map text = .ok "A`2<int[,], !T&>" := by rfl

end Typings.TypeRef
