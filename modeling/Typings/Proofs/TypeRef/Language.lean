import Mathlib.Data.String.Basic
import Typings.Proofs.TypeRef.Grammar

/-! # What is read as a type reference

Reading accepts the texts that the grammar derives, and answers with the reference of the
derivation. In one direction the machine is led along a derivation (`Phrase.leads`). In the other,
every state of the machine stands for what the text up to it spells (`Progress.Spells`): a step
keeps that by going on with the derivation, and a text that ends well has a whole one.
-/
namespace Typings.TypeRef

open Typings.Text (isBlank)

namespace Progress

/-! ## Reading along a derivation -/

/-- Reading a text takes one state to another, wherever the text stands and whatever follows. -/
def Leads (p : Progress) (cs : List Char) (q : Progress) : Prop :=
  ∀ offset rest, p.run offset (cs ++ rest) = q.run (offset + String.utf8Len cs) rest

/-- A whole reference has been read, and suffixes may follow. -/
inductive Extensible : Progress → List Opened → TypeRef → Prop where
  | name {outer read} : Extensible (.name outer read) outer (.named (spelled read) [])
  | paramName {outer read} : Extensible (.paramName outer read) outer (.param (spelled read))
  | suffix {outer ty} : Extensible (.suffix outer ty) outer ty

/-- A whole reference has been read. -/
inductive Ended : Progress → List Opened → TypeRef → Prop where
  | extensible {q outer ty} : Extensible q outer ty → Ended q outer ty
  | done {outer ty} : Ended (.done outer ty) outer ty

variable {p q r : Progress} {outer : List Opened} {ty : TypeRef} {a b : List Char} {c : Char}

theorem Leads.refl (p : Progress) : Leads p [] p := fun _ _ => rfl

theorem Leads.trans (hpq : Leads p a q) (hqr : Leads q b r) : Leads p (a ++ b) r := by
  intro offset rest
  rw [List.append_assoc, hpq, hqr, String.utf8Len_append, Nat.add_assoc]

theorem Leads.cons (h : ∀ offset, p.step c offset = .ok q) (hqr : Leads q b r) :
    Leads p (c :: b) r := by
  intro offset rest
  rw [List.cons_append, run, h]
  dsimp only
  rw [hqr, String.utf8Len_cons, Nat.add_assoc, Nat.add_comm c.utf8Size]

theorem Leads.single (h : ∀ offset, p.step c offset = .ok q) : Leads p [c] q :=
  .cons h (.refl q)

/-- A run of characters of a class, each of which is put in front of those read before. -/
theorem leads_run {f : List Char → Progress} {P : Char → Bool}
    (hstep : ∀ read c offset, P c = true → (f read).step c offset = .ok (f (c :: read)))
    {cs : List Char} (hcs : ∀ c ∈ cs, P c = true) (read : List Char) :
    Leads (f read) cs (f (cs.reverse ++ read)) := by
  induction cs generalizing read with
  | nil => exact .refl _
  | cons c cs ih =>
    have hc := hcs c List.mem_cons_self
    rw [List.reverse_cons, List.append_assoc]
    exact .cons (fun offset => hstep read c offset hc)
      (ih (fun d hd => hcs d (List.mem_cons_of_mem _ hd)) (c :: read))

theorem Extensible.step (h : Extensible q outer ty) (hc : isNameChar c = false) (hb : c ≠ '<')
    (offset : Nat) : q.step c offset = follow outer ty c offset := by
  cases h with
  | name => rw [Progress.step, hc, if_neg Bool.false_ne_true, if_neg hb]
  | paramName => rw [Progress.step, hc, if_neg Bool.false_ne_true]
  | suffix => rfl

theorem Ended.separate (h : Ended q outer ty) (hc : c = ',' ∨ c = '>') (offset : Nat) :
    q.step c offset = Progress.separate outer ty c offset := by
  cases h with
  | done => rcases hc with rfl | rfl <;> rfl
  | extensible h => rcases hc with rfl | rfl <;> rw [h.step rfl (by decide)] <;> rfl

theorem Ended.finish (h : Ended q outer ty) (offset : Nat) : q.finish offset = whole outer ty := by
  cases h with
  | done => rfl
  | extensible h => cases h <;> rfl

theorem leads_lead (lead : Blanks) : Leads (.start outer) lead.chars (.start outer) := by
  refine leads_run (f := fun _ => .start outer) (P := isBlank) ?_ lead.all_blank []
  intro _ c offset hc
  rw [step, hc, if_pos rfl]

theorem leads_name (name : Name) :
    Leads (.start outer) name.chars (.name outer name.chars.reverse) := by
  obtain ⟨c, cs, hname, hc⟩ := name.exists_chars
  have hall := name.all_name
  have hbang : c ≠ '!' := ne_of_class hc rfl
  rw [hname] at hall ⊢
  have hfirst : ∀ offset, (Progress.start outer).step c offset = .ok (.name outer [c]) := by
    intro offset
    rw [step, not_isBlank_of_isNameChar hc, if_neg Bool.false_ne_true, if_neg hbang, if_pos hc]
  rw [List.reverse_cons]
  refine .cons hfirst (leads_run (f := .name outer) ?_ (fun d hd => hall d (by simp [hd])) [c])
  intro read d offset hd
  rw [step, if_pos hd]

theorem leads_paramName (name : Name) :
    Leads (.paramStart outer) name.chars (.paramName outer name.chars.reverse) := by
  obtain ⟨c, cs, hname, hc⟩ := name.exists_chars
  have hall := name.all_name
  rw [hname] at hall ⊢
  have hfirst : ∀ offset, (Progress.paramStart outer).step c offset = .ok (.paramName outer [c]) := by
    intro offset
    rw [step, if_pos hc]
  rw [List.reverse_cons]
  refine .cons hfirst (leads_run (f := .paramName outer) ?_ (fun d hd => hall d (by simp [hd])) [c])
  intro read d offset hd
  rw [step, if_pos hd]

theorem Extensible.leads_suffix (h : Extensible q outer ty) (s : Suffix) :
    Leads q s.chars (.suffix outer (s.apply ty)) := by
  cases s with
  | array commas =>
    have hcommas : Leads (.inRank outer ty 1) (List.replicate commas ',')
        (.inRank outer ty (commas + 1)) := by
      have hall : ∀ c ∈ List.replicate commas ',', (c == ',') = true := by
        intro c hc
        simp [List.eq_of_mem_replicate hc]
      have hrun := leads_run (f := fun read => .inRank outer ty (read.length + 1))
        (P := fun c => c == ',')
        (by intro read c offset hc; rw [Progress.step, if_pos (by simpa using hc)]; rfl) hall []
      simpa using hrun
    exact .cons (fun offset => h.step rfl (by decide) offset)
      (hcommas.trans (.single fun _ => rfl))
  | byRef => exact .single fun offset => h.step rfl (by decide) offset
  | pointer => exact .single fun offset => h.step rfl (by decide) offset

theorem Extensible.leads_suffixes (h : Extensible q outer ty) (suffixes : List Suffix) :
    ∃ r, Leads q (suffixes.flatMap Suffix.chars) r ∧
      Extensible r outer (suffixes.foldl Suffix.apply ty) := by
  induction suffixes generalizing q ty with
  | nil => exact ⟨q, .refl q, h⟩
  | cons s suffixes ih =>
    have hsuffix : Extensible (.suffix outer (s.apply ty)) outer (s.apply ty) := .suffix
    obtain ⟨r, hr, hext⟩ := ih hsuffix
    exact ⟨r, (h.leads_suffix s).trans hr, hext⟩

theorem Extensible.leads_trail (h : Extensible q outer ty) (trail : Blanks) :
    ∃ r, Leads q trail.chars r ∧ Ended r outer ty := by
  obtain ⟨cs, hcs⟩ := trail
  cases cs with
  | nil => exact ⟨q, .refl q, .extensible h⟩
  | cons c cs =>
    have hc := hcs c List.mem_cons_self
    have hfirst : ∀ offset, q.step c offset = .ok (.done outer ty) := by
      intro offset
      rw [h.step (not_isNameChar_of_isBlank hc) (ne_of_class hc rfl), follow,
        if_neg (ne_of_class hc rfl), if_neg (ne_of_class hc rfl), if_neg (ne_of_class hc rfl),
        if_pos hc]
    refine ⟨.done outer ty, .cons hfirst ?_, .done⟩
    refine leads_run (f := fun _ => .done outer ty) (P := isBlank) ?_
      (fun d hd => hcs d (List.mem_cons_of_mem _ hd)) []
    intro _ d offset hd
    rw [Progress.step, if_pos hd]

end Progress

open Progress (Leads Extensible Ended leads_lead leads_name leads_paramName spelled)

/-- A name has been read with its last character first. -/
theorem Name.spelled_chars (name : Name) : spelled name.chars.reverse = name.text := by
  rw [spelled, List.reverse_reverse, Name.text]

mutual

theorem Phrase.leads : ∀ (p : Phrase) (outer : List Opened),
    ∃ q, Leads (.start outer) p.chars q ∧ Ended q outer p.tree
  | .mk lead core suffixes trail, outer => by
    obtain ⟨q, hq, hcore⟩ := Core.leads core outer
    obtain ⟨r, hr, hsuffixes⟩ := hcore.leads_suffixes suffixes
    obtain ⟨s, hs, hend⟩ := hsuffixes.leads_trail trail
    exact ⟨s, (leads_lead lead).trans (hq.trans (hr.trans hs)), hend⟩

theorem Core.leads : ∀ (core : Core) (outer : List Opened),
    ∃ q, Leads (.start outer) core.chars q ∧ Extensible q outer core.tree
  | .param name, outer => by
    refine ⟨.paramName outer name.chars.reverse, .cons (fun _ => rfl) (leads_paramName name), ?_⟩
    rw [Core.tree, ← name.spelled_chars]
    exact .paramName
  | .named name [], outer => by
    refine ⟨.name outer name.chars.reverse, ?_, ?_⟩
    · exact (leads_name name).trans (.refl _)
    · rw [Core.tree, Phrase.trees, ← name.spelled_chars]
      exact .name
  | .named name (arg :: args), outer => by
    obtain ⟨q, hq, harg⟩ := Phrase.leads arg (⟨name.text, []⟩ :: outer)
    have hopen : ∀ offset, (Progress.name outer name.chars.reverse).step '<' offset =
        .ok (.start (⟨name.text, []⟩ :: outer)) := by
      intro offset
      rw [Progress.step, if_neg (by decide), if_pos rfl, name.spelled_chars]
    exact ⟨_, (leads_name name).trans (.cons hopen (hq.trans (Phrase.leads_more args harg))),
      .suffix⟩

/-- Behind an argument of an opened type, the further arguments and the bracket close it. -/
theorem Phrase.leads_more : ∀ (args : List Phrase) {q : Progress} {name : String}
    {read : List TypeRef} {outer : List Opened} {ty : TypeRef},
    Ended q (⟨name, read⟩ :: outer) ty →
      Leads q (Phrase.moreChars args) (.suffix outer (.named name (read ++ ty :: Phrase.trees args)))
  | [], q, name, read, outer, ty, h => .single fun offset => by
    rw [h.separate (.inr rfl)]
    rfl
  | arg :: args, q, name, read, outer, ty, h => by
    obtain ⟨r, hr, harg⟩ := Phrase.leads arg (⟨name, read ++ [ty]⟩ :: outer)
    have hnext : ∀ offset, q.step ',' offset = .ok (.start (⟨name, read ++ [ty]⟩ :: outer)) := by
      intro offset
      rw [h.separate (.inl rfl)]
      rfl
    have hmore := Phrase.leads_more args harg
    rw [List.append_assoc] at hmore
    exact .cons hnext (hr.trans hmore)

end

/-- A text with a derivation is read, as the reference that the derivation stands for. -/
theorem ofText_eq_ok_of_phrase {s : String} (p : Phrase) (h : p.chars = s.toList) :
    ofText s = .ok p.tree := by
  obtain ⟨q, hq, hend⟩ := p.leads []
  have hrun := hq 0 []
  rw [List.append_nil, h, Progress.run, hend.finish] at hrun
  exact hrun

namespace Progress

/-! ## What has been read -/

/-- The text in front of the current reference: every opened type with its name, its bracket and
the arguments read so far, each behind its comma. -/
inductive Context : List Opened → List Char → Prop where
  | outermost : Context [] []
  | opened {outer front} (h : Context outer front) (lead : Blanks) (name : Name)
      (args : List Phrase) :
      Context (⟨name.text, Phrase.trees args⟩ :: outer)
        (front ++ (lead.chars ++ (name.chars ++
          '<' :: args.flatMap fun arg => arg.chars ++ [','])))

/-- A state stands for the text up to it: the context, and the current reference as far as it has
come. -/
inductive Spells : Progress → List Char → Prop where
  | start {outer front} (h : Context outer front) (lead : Blanks) :
      Spells (.start outer) (front ++ lead.chars)
  | name {outer front} (h : Context outer front) (lead : Blanks) (name : Name) :
      Spells (.name outer name.chars.reverse) (front ++ (lead.chars ++ name.chars))
  | paramStart {outer front} (h : Context outer front) (lead : Blanks) :
      Spells (.paramStart outer) (front ++ (lead.chars ++ ['!']))
  | paramName {outer front} (h : Context outer front) (lead : Blanks) (name : Name) :
      Spells (.paramName outer name.chars.reverse) (front ++ (lead.chars ++ '!' :: name.chars))
  | inRank {outer front} (h : Context outer front) (lead : Blanks) (core : Core)
      (suffixes : List Suffix) (commas : Nat) :
      Spells (.inRank outer (suffixes.foldl Suffix.apply core.tree) (commas + 1))
        (front ++ (lead.chars ++ (core.chars ++
          (suffixes.flatMap Suffix.chars ++ '[' :: List.replicate commas ','))))
  | suffix {outer front} (h : Context outer front) (lead : Blanks) (core : Core)
      (suffixes : List Suffix) :
      Spells (.suffix outer (suffixes.foldl Suffix.apply core.tree))
        (front ++ (lead.chars ++ (core.chars ++ suffixes.flatMap Suffix.chars)))
  | done {outer front} (h : Context outer front) (p : Phrase) :
      Spells (.done outer p.tree) (front ++ p.chars)

theorem Spells.separate {front : List Char} (h : Context outer front) (p : Phrase) {offset : Nat}
    (hq : Progress.separate outer p.tree c offset = .ok q) :
    Spells q (front ++ (p.chars ++ [c])) := by
  cases h with
  | outermost => cases hq
  | @opened outer front h lead name args =>
    simp only [Progress.separate] at hq
    split at hq
    · next hc =>
      cases hq
      have hnext := Spells.start (h.opened lead name (args ++ [p])) .none
      simpa [Phrase.trees_eq_map, Opened.push, Blanks.none, hc] using hnext
    · split at hq
      · next hc =>
        cases hq
        have hclosed := Spells.suffix h lead (.named name (args ++ [p])) []
        simpa [Phrase.trees_eq_map, Opened.close, Core.tree, Core.chars, Phrase.argChars_concat,
          hc] using hclosed
      · cases hq

theorem Spells.follow {front : List Char} (h : Context outer front) (lead : Blanks) (core : Core)
    (suffixes : List Suffix) {offset : Nat}
    (hq : Progress.follow outer (suffixes.foldl Suffix.apply core.tree) c offset = .ok q) :
    Spells q (front ++ (lead.chars ++ (core.chars ++ (suffixes.flatMap Suffix.chars ++ [c])))) := by
  have hsuffix : ∀ s : Suffix, s.chars = [c] → q = .suffix outer (s.apply
      (suffixes.foldl Suffix.apply core.tree)) →
      Spells q (front ++ (lead.chars ++ (core.chars ++ (suffixes.flatMap Suffix.chars ++ [c])))) := by
    intro s hs hqs
    have hnext := Spells.suffix h lead core (suffixes ++ [s])
    simpa [hs, hqs] using hnext
  unfold Progress.follow at hq
  split at hq
  · next hc =>
    cases hq
    have hnext := Spells.inRank h lead core suffixes 0
    simpa [hc] using hnext
  · split at hq
    · next hc => exact hsuffix .byRef (by rw [hc]; rfl) (Except.ok.inj hq).symm
    · split at hq
      · next hc => exact hsuffix .pointer (by rw [hc]; rfl) (Except.ok.inj hq).symm
      · split at hq
        · next hc =>
          cases hq
          have hnext := Spells.done h (.mk lead core suffixes (Blanks.none.concat c hc))
          simpa [Phrase.chars, Phrase.tree, Blanks.concat, Blanks.none] using hnext
        · have hnext := Spells.separate h (.mk lead core suffixes .none) hq
          simpa [Phrase.chars, Blanks.none] using hnext

/-- One more character goes on with what has been spelled. -/
theorem Spells.step {text : List Char} (h : Spells p text) {offset : Nat}
    (hq : p.step c offset = .ok q) : Spells q (text ++ [c]) := by
  -- In each state, the branches of `step` that succeed; those that end a name go on as `follow`.
  cases h with
  | @start outer front h lead =>
    simp only [Progress.step] at hq
    split at hq
    · next hc =>
      cases hq
      have hnext := Spells.start h (lead.concat c hc)
      simpa [Blanks.concat] using hnext
    · split at hq
      · next hc =>
        cases hq
        have hnext := Spells.paramStart h lead
        simpa [hc] using hnext
      · split at hq
        · next hc =>
          cases hq
          have hnext := Spells.name h lead (.single c hc)
          simpa [Name.single] using hnext
        · cases hq
  | @name outer front h lead name =>
    simp only [Progress.step] at hq
    split at hq
    · next hc =>
      cases hq
      have hnext := Spells.name h lead (name.concat c hc)
      simpa [Name.concat] using hnext
    · split at hq
      · next hc =>
        cases hq
        have hnext := Spells.start (h.opened lead name []) .none
        simpa [name.spelled_chars, Phrase.trees, Blanks.none, hc] using hnext
      · rw [name.spelled_chars] at hq
        have hnext := Spells.follow h lead (.named name []) [] hq
        simpa [Core.chars, Phrase.argChars] using hnext
  | @paramStart outer front h lead =>
    simp only [Progress.step] at hq
    split at hq
    · next hc =>
      cases hq
      have hnext := Spells.paramName h lead (.single c hc)
      simpa [Name.single] using hnext
    · cases hq
  | @paramName outer front h lead name =>
    simp only [Progress.step] at hq
    split at hq
    · next hc =>
      cases hq
      have hnext := Spells.paramName h lead (name.concat c hc)
      simpa [Name.concat] using hnext
    · rw [name.spelled_chars] at hq
      have hnext := Spells.follow h lead (.param name) [] hq
      simpa [Core.chars] using hnext
  | @inRank outer front h lead core suffixes commas =>
    simp only [Progress.step] at hq
    split at hq
    · next hc =>
      cases hq
      have hnext := Spells.inRank h lead core suffixes (commas + 1)
      simpa [List.replicate_succ', hc] using hnext
    · split at hq
      · next hc =>
        cases hq
        have hnext := Spells.suffix h lead core (suffixes ++ [.array commas])
        simpa [Suffix.apply, Suffix.chars, hc] using hnext
      · cases hq
  | @suffix outer front h lead core suffixes =>
    have hnext := Spells.follow h lead core suffixes hq
    simpa using hnext
  | @done outer front h p =>
    simp only [Progress.step] at hq
    split at hq
    · next hc =>
      cases hq
      obtain ⟨lead, core, suffixes, trail⟩ := p
      have hnext := Spells.done h (.mk lead core suffixes (trail.concat c hc))
      simpa [Phrase.chars, Phrase.tree, Blanks.concat] using hnext
    · have hnext := Spells.separate h p hq
      simpa using hnext

/-- Only outside of all brackets does a whole reference end the text. -/
theorem Context.of_whole {front : List Char} {t : TypeRef} (h : Context outer front)
    (ht : whole outer ty = .ok t) : front = [] ∧ ty = t := by
  cases h with
  | outermost => exact ⟨rfl, Except.ok.inj ht⟩
  | opened => cases ht

theorem Spells.finish {text : List Char} (h : Spells p text) {offset : Nat} {t : TypeRef}
    (ht : p.finish offset = .ok t) : ∃ phrase : Phrase, phrase.chars = text ∧ phrase.tree = t := by
  have hphrase : ∀ {outer front} (lead : Blanks) (core : Core) (suffixes : List Suffix),
      Context outer front → whole outer (suffixes.foldl Suffix.apply core.tree) = .ok t →
      ∃ phrase : Phrase, phrase.tree = t ∧
        phrase.chars = front ++ (lead.chars ++ (core.chars ++ suffixes.flatMap Suffix.chars)) := by
    intro outer front lead core suffixes h ht
    obtain ⟨rfl, hty⟩ := h.of_whole ht
    exact ⟨.mk lead core suffixes .none, hty, by simp [Phrase.chars, Blanks.none]⟩
  cases h with
  | @start outer front h lead =>
    rw [Progress.finish] at ht
    split at ht <;> cases ht
  | @name outer front h lead name =>
    obtain ⟨phrase, htree, hchars⟩ := hphrase lead (.named name []) [] h (by
      rwa [Progress.finish, name.spelled_chars] at ht)
    exact ⟨phrase, by simpa [Core.chars, Phrase.argChars] using hchars, htree⟩
  | @paramStart outer front h lead => cases ht
  | @paramName outer front h lead name =>
    obtain ⟨phrase, htree, hchars⟩ := hphrase lead (.param name) [] h (by
      rwa [Progress.finish, name.spelled_chars] at ht)
    exact ⟨phrase, by simpa [Core.chars] using hchars, htree⟩
  | @inRank outer front h lead core suffixes commas => cases ht
  | @suffix outer front h lead core suffixes =>
    obtain ⟨phrase, htree, hchars⟩ := hphrase lead core suffixes h ht
    exact ⟨phrase, hchars, htree⟩
  | @done outer front h phrase =>
    obtain ⟨rfl, htree⟩ := h.of_whole ht
    exact ⟨phrase, rfl, htree⟩

/-- By induction on what is left of the text: what the state stands for goes on with it. -/
theorem Spells.run {text : List Char} (h : Spells p text) {rest : List Char} {offset : Nat}
    {t : TypeRef} (ht : p.run offset rest = .ok t) :
    ∃ phrase : Phrase, phrase.chars = text ++ rest ∧ phrase.tree = t := by
  induction rest generalizing p text offset with
  | nil =>
    rw [List.append_nil]
    exact h.finish ht
  | cons c rest ih =>
    rw [Progress.run] at ht
    split at ht
    · next q hq =>
      have hnext := ih (h.step hq) ht
      rwa [List.append_assoc] at hnext
    · cases ht

end Progress

/-- A text is read as a reference when it has a derivation that stands for the reference. -/
theorem ofText_eq_ok_iff {s : String} {t : TypeRef} :
    ofText s = .ok t ↔ ∃ p : Phrase, p.chars = s.toList ∧ p.tree = t := by
  constructor
  · intro h
    exact (Progress.Spells.start .outermost .none).run h
  · intro h
    obtain ⟨p, hp, ht⟩ := h
    rw [ofText_eq_ok_of_phrase p hp, ht]

theorem length_le_utf8Len (cs : List Char) : cs.length ≤ String.utf8Len cs := by
  induction cs with
  | nil => exact Nat.le_refl _
  | cons c cs ih =>
    have := c.utf8Size_pos
    rw [List.length_cons, String.utf8Len_cons]
    omega

/-- A rank takes more characters to write than it counts. -/
theorem rank_lt_utf8ByteSize {s : String} {t : TypeRef} (h : ofText s = .ok t) {r : Nat}
    (hr : r ∈ t.ranks) : r < s.utf8ByteSize := by
  obtain ⟨p, hp, rfl⟩ := ofText_eq_ok_iff.mp h
  have hlt := (p.rank_of_mem hr).2
  rw [hp] at hlt
  exact Nat.lt_of_lt_of_le hlt (String.utf8Len_toList s ▸ length_le_utf8Len s.toList)

/-- A text is read as a reference exactly when the grammar derives it, the derivation is then the
only one, and the reference is its tree. In a text of less than 2^32 bytes every rank fits 32
bits. -/
theorem reads_what_grammar_derives (s : String) :
    (∀ t, ofText s = .ok t ↔ ∃ p : Phrase, p.chars = s.toList ∧ p.tree = t) ∧
      (∀ p q : Phrase, p.chars = s.toList → q.chars = s.toList → p = q) ∧
      (s.utf8ByteSize < 2 ^ 32 → ∀ t, ofText s = .ok t → ∀ r ∈ t.ranks,
        (UInt32.ofNat r).toNat = r) := by
  refine ⟨fun t => ofText_eq_ok_iff, ?_, ?_⟩
  · intro p q hp hq
    exact Phrase.chars_injective (hp.trans hq.symm)
  · intro hsize t ht r hr
    have hlt := rank_lt_utf8ByteSize ht hr
    exact UInt32.toNat_ofNat_of_lt' (Nat.lt_trans hlt hsize)

end Typings.TypeRef
