import Typings.Proofs.TypeRef.Language

/-! # Errors of type references

Reading stops at the first character that rules every reference out. Whatever state has been reached
without an error can still be led to a whole reference (`Progress.completes`), so the text read so
far begins one; and a step that fails does so whatever the text goes on with, so the character it
fails at does not. What a text that ends early still has open is counted by the state as it is
counted on the text (`openBrackets`).
-/
namespace Typings.TypeRef

open Typings.Text (isBlank)

/-- Some text that is read as a reference starts with this one. -/
def Viable (front : String) : Prop :=
  ∃ (back : String) (ty : TypeRef), ofText (front ++ back) = .ok ty

/-- The opening brackets that are still open behind a character, the innermost first. -/
def bracketsAfter (before : List Char) (c : Char) : List Char :=
  if c = '<' || c = '[' then c :: before else if c = '>' || c = ']' then before.tail else before

/-- The opening brackets that are still open at the end of a text, the innermost first. -/
def openBrackets (cs : List Char) : List Char := cs.foldl bracketsAfter []

namespace Progress

variable {p q r : Progress} {outer : List Opened} {ty : TypeRef} {c : Char} {cs ds : List Char}

/-! ## Steps, wherever they are taken -/

/-- The two ways to refuse a character, each with the offset that it stands at. -/
inductive Refusal (c : Char) : (Nat → SyntaxError) → Prop where
  | name : Refusal c .expectedName
  | character : Refusal c (.unexpected c)

/-- A step leads to one state, or it refuses the character, and the offset has no part in it. -/
def Decided (c : Char) (outcome : Nat → Except SyntaxError Progress) : Prop :=
  (∃ q, ∀ offset, outcome offset = .ok q) ∨
    ∃ fault, Refusal c fault ∧ ∀ offset, outcome offset = .error (fault offset)

theorem Decided.ok (q : Progress) : Decided c fun _ => .ok q := .inl ⟨q, fun _ => rfl⟩

theorem Decided.refused {fault : Nat → SyntaxError} (h : Refusal c fault) :
    Decided c fun offset => .error (fault offset) :=
  .inr ⟨fault, h, fun _ => rfl⟩

theorem Decided.ite {P : Prop} [Decidable P] {f g : Nat → Except SyntaxError Progress}
    (hf : Decided c f) (hg : Decided c g) :
    Decided c fun offset => if P then f offset else g offset := by
  split
  · exact hf
  · exact hg

theorem decided_separate (outer : List Opened) (ty : TypeRef) (c : Char) :
    Decided c (separate outer ty c) := by
  cases outer with
  | nil => exact .refused .character
  | cons o outer => exact .ite (.ok _) (.ite (.ok _) (.refused .character))

theorem decided_follow (outer : List Opened) (ty : TypeRef) (c : Char) :
    Decided c (follow outer ty c) :=
  .ite (.ok _) (.ite (.ok _) (.ite (.ok _) (.ite (.ok _) (decided_separate outer ty c))))

theorem decided_step (p : Progress) (c : Char) : Decided c (p.step c) := by
  cases p with
  | start outer => exact .ite (.ok _) (.ite (.ok _) (.ite (.ok _) (.refused .name)))
  | name outer read => exact .ite (.ok _) (.ite (.ok _) (decided_follow outer _ c))
  | paramStart outer => exact .ite (.ok _) (.refused .name)
  | paramName outer read => exact .ite (.ok _) (decided_follow outer _ c)
  | inRank outer element rank => exact .ite (.ok _) (.ite (.ok _) (.refused .character))
  | suffix outer ty => exact decided_follow outer ty c
  | done outer ty => exact .ite (.ok _) (decided_separate outer ty c)

/-- Characters that take one state to another, step by step. -/
inductive Path : Progress → List Char → Progress → Prop where
  | nil (p : Progress) : Path p [] p
  | cons {p q r : Progress} {c : Char} {cs : List Char} (h : ∀ offset, p.step c offset = .ok q)
      (hqr : Path q cs r) : Path p (c :: cs) r

theorem Path.leads (h : Path p cs q) : Leads p cs q := by
  induction h with
  | nil p => exact .refl p
  | cons h _ ih => exact .cons h ih

theorem Path.spells (h : Path p cs q) (hp : Spells p ds) : Spells q (ds ++ cs) := by
  induction h generalizing ds with
  | nil p => rwa [List.append_nil]
  | cons h _ ih =>
    have hnext := ih (hp.step (h 0))
    rwa [List.append_assoc] at hnext

/-- A run that fails gets as far as a character that is refused, or to the end of the text. -/
theorem error_of_run {offset : Nat} {e : SyntaxError} (h : p.run offset cs = .error e) :
    (∃ front c back q fault, cs = front ++ c :: back ∧ Path p front q ∧ Refusal c fault ∧
        (∀ offset, q.step c offset = .error (fault offset)) ∧
        e = fault (offset + String.utf8Len front)) ∨
      ∃ q, Path p cs q ∧ q.finish (offset + String.utf8Len cs) = .error e := by
  induction cs generalizing p offset with
  | nil => exact .inr ⟨p, .nil p, h⟩
  | cons c cs ih =>
    rw [run] at h
    rcases decided_step p c with ⟨q, hq⟩ | ⟨fault, hfault, hstep⟩
    · rw [hq] at h
      have hlength : ∀ ds, offset + c.utf8Size + String.utf8Len ds =
          offset + String.utf8Len (c :: ds) := by
        intro ds
        rw [String.utf8Len_cons, Nat.add_comm (String.utf8Len ds), Nat.add_assoc]
      rcases ih h with ⟨front, d, back, r, fault, rfl, hpath, hfault, hstep, he⟩ | ⟨r, hpath, he⟩
      · exact .inl ⟨c :: front, d, back, r, fault, rfl, .cons hq hpath, hfault, hstep,
          hlength front ▸ he⟩
      · exact .inr ⟨r, .cons hq hpath, hlength cs ▸ he⟩
    · rw [hstep] at h
      exact .inl ⟨[], c, cs, p, fault, rfl, .nil p, hfault, hstep, (Except.error.inj h).symm⟩

/-! ## Every state can be completed -/

/-- The closing brackets of all opened types complete a whole reference. -/
theorem Ended.closes (h : Ended q outer ty) :
    ∃ r t, Leads q (List.replicate outer.length '>') r ∧ Ended r [] t := by
  induction outer generalizing q ty with
  | nil => exact ⟨q, ty, .refl q, h⟩
  | cons o outer ih =>
    have hclosed : Ended (.suffix outer (o.close ty)) outer (o.close ty) := .extensible .suffix
    obtain ⟨r, t, hr, hend⟩ := ih hclosed
    exact ⟨r, t, .cons (fun offset => h.separate (.inr rfl) offset) hr, hend⟩

/-- From every state some text leads to a whole reference. -/
theorem completes (p : Progress) : ∃ cs r t, Leads p cs r ∧ Ended r [] t := by
  have hclose : ∀ {q outer ty} (front : List Char), Leads p front q → Ended q outer ty →
      ∃ cs r t, Leads p cs r ∧ Ended r [] t := by
    intro q outer ty front hfront hend
    obtain ⟨r, t, hr, hr'⟩ := hend.closes
    exact ⟨_, r, t, hfront.trans hr, hr'⟩
  cases p with
  | start outer =>
    exact hclose ['x'] (.single (q := .name outer ['x']) fun _ => rfl) (.extensible .name)
  | name outer read => exact hclose [] (.refl _) (.extensible .name)
  | paramStart outer =>
    exact hclose ['x'] (.single (q := .paramName outer ['x']) fun _ => rfl) (.extensible .paramName)
  | paramName outer read => exact hclose [] (.refl _) (.extensible .paramName)
  | inRank outer element rank =>
    exact hclose [']'] (.single (q := .suffix outer (.array element rank)) fun _ => rfl)
      (.extensible .suffix)
  | suffix outer ty => exact hclose [] (.refl _) (.extensible .suffix)
  | done outer ty => exact hclose [] (.refl _) .done

/-! ## Open brackets -/

/-- The constructed types that are open, the innermost first. -/
def opened : Progress → List Opened
  | .start outer | .name outer _ | .paramStart outer | .paramName outer _ | .inRank outer _ _
  | .suffix outer _ | .done outer _ => outer

/-- The brackets that are open: that of an array is inside those of the constructed types. -/
def brackets (p : Progress) : List Char :=
  match p with
  | .inRank outer _ _ => '[' :: List.replicate outer.length '<'
  | p => List.replicate p.opened.length '<'

theorem bracketsAfter_of_class {P : Char → Bool} (hc : P c = true)
    (hP : ['<', '[', '>', ']'].any P = false) (before : List Char) :
    bracketsAfter before c = before := by
  simp only [List.any_cons, Bool.or_eq_false_iff] at hP
  obtain ⟨h₁, h₂, h₃, h₄, -⟩ := hP
  simp [bracketsAfter, ne_of_class hc h₁, ne_of_class hc h₂, ne_of_class hc h₃, ne_of_class hc h₄]

theorem bracketsAfter_of_isBlank (h : isBlank c = true) (before : List Char) :
    bracketsAfter before c = before :=
  bracketsAfter_of_class h (by decide) before

theorem bracketsAfter_of_isNameChar (h : isNameChar c = true) (before : List Char) :
    bracketsAfter before c = before :=
  bracketsAfter_of_class h (by decide) before

theorem brackets_separate {offset : Nat} (h : separate outer ty c offset = .ok q) :
    q.brackets = bracketsAfter (List.replicate outer.length '<') c := by
  cases outer with
  | nil => cases h
  | cons o outer =>
    simp only [separate] at h
    split at h
    · next hc => cases h; subst hc; rfl
    · split at h
      · next hc => cases h; subst hc; rfl
      · cases h

theorem brackets_follow {offset : Nat} (h : follow outer ty c offset = .ok q) :
    q.brackets = bracketsAfter (List.replicate outer.length '<') c := by
  unfold follow at h
  split at h
  · next hc => cases h; subst hc; rfl
  · split at h
    · next hc => cases h; subst hc; rfl
    · split at h
      · next hc => cases h; subst hc; rfl
      · split at h
        · next hc => cases h; exact (bracketsAfter_of_isBlank hc _).symm
        · exact brackets_separate h

/-- A step keeps count of the brackets. -/
theorem brackets_step {offset : Nat} (h : p.step c offset = .ok q) :
    q.brackets = bracketsAfter p.brackets c := by
  cases p with
  | start outer =>
    simp only [step] at h
    split at h
    · next hc => cases h; exact (bracketsAfter_of_isBlank hc _).symm
    · split at h
      · next hc => cases h; subst hc; rfl
      · split at h
        · next hc => cases h; exact (bracketsAfter_of_isNameChar hc _).symm
        · cases h
  | name outer read =>
    simp only [step] at h
    split at h
    · next hc => cases h; exact (bracketsAfter_of_isNameChar hc _).symm
    · split at h
      · next hc => cases h; subst hc; rfl
      · exact brackets_follow h
  | paramStart outer =>
    simp only [step] at h
    split at h
    · next hc => cases h; exact (bracketsAfter_of_isNameChar hc _).symm
    · cases h
  | paramName outer read =>
    simp only [step] at h
    split at h
    · next hc => cases h; exact (bracketsAfter_of_isNameChar hc _).symm
    · exact brackets_follow h
  | inRank outer element rank =>
    simp only [step] at h
    split at h
    · next hc => cases h; subst hc; rfl
    · split at h
      · next hc => cases h; subst hc; rfl
      · cases h
  | suffix outer ty => exact brackets_follow h
  | done outer ty =>
    simp only [step] at h
    split at h
    · next hc => cases h; exact (bracketsAfter_of_isBlank hc _).symm
    · exact brackets_separate h

theorem Path.brackets (h : Path p cs q) : q.brackets = cs.foldl bracketsAfter p.brackets := by
  induction h with
  | nil p => rfl
  | cons h _ ih => rw [ih, brackets_step (h 0), List.foldl_cons]

/-! ## The end of a text -/

theorem whole_eq_error {e : SyntaxError} (h : whole outer ty = .error e) :
    ∃ o more, outer = o :: more ∧ e = .unclosed '<' := by
  cases outer with
  | nil => cases h
  | cons o more => cases h; exact ⟨o, more, rfl, rfl⟩

/-- A text that ends early is empty, stops where a name is due, or leaves a bracket open. -/
theorem finish_eq_error {offset : Nat} {e : SyntaxError} (h : p.finish offset = .error e) :
    (e = .empty ∧ p = .start []) ∨ e = .expectedName offset ∨
      ∃ b, e = .unclosed b ∧ p.brackets.head? = some b := by
  have hwhole : ∀ {ty}, whole p.opened ty = .error e →
      ∃ b, e = .unclosed b ∧ (List.replicate p.opened.length '<').head? = some b := by
    intro ty hw
    obtain ⟨o, more, ho, he⟩ := whole_eq_error hw
    exact ⟨'<', he, by rw [ho]; rfl⟩
  cases p with
  | start outer =>
    rw [finish] at h
    split at h
    · next hnil => cases h; exact .inl ⟨rfl, by rw [List.isEmpty_iff.mp hnil]⟩
    · cases h; exact .inr (.inl rfl)
  | paramStart outer => cases h; exact .inr (.inl rfl)
  | inRank outer element rank => cases h; exact .inr (.inr ⟨'[', rfl, rfl⟩)
  | name | paramName | suffix | done => exact .inr (.inr (hwhole h))

end Progress

open Progress (Path Refusal)

variable {s : String} {e : SyntaxError}

theorem run_start_eq_ofText (cs : List Char) :
    (Progress.start []).run 0 cs = ofText (String.ofList cs) := by
  rw [ofText, String.toList_ofList]

/-- What has been read without an error begins a reference. -/
theorem viable_of_path {cs : List Char} {q : Progress} (h : Path (.start []) cs q) :
    Viable (String.ofList cs) := by
  obtain ⟨back, r, ty, hr, hend⟩ := q.completes
  refine ⟨String.ofList back, ty, ?_⟩
  rw [← String.ofList_append, ← run_start_eq_ofText, h.leads, ← List.append_nil back, hr,
    Progress.run, hend.finish]
  rfl

/-- A character that is refused is refused whatever the text goes on with. -/
theorem not_viable_of_refused {cs : List Char} {q : Progress} {c : Char}
    {fault : Nat → SyntaxError} (h : Path (.start []) cs q)
    (hstep : ∀ offset, q.step c offset = .error (fault offset)) :
    ¬ Viable ((String.ofList cs).push c) := by
  rintro ⟨back, ty, hty⟩
  have htext : ((String.ofList cs).push c ++ back).toList = cs ++ c :: back.toList := by simp
  have hrun := h.leads 0 (c :: back.toList)
  rw [Progress.run, hstep, ← htext] at hrun
  rw [ofText, hrun] at hty
  cases hty

/-- Only blanks leave the reading where it starts. -/
theorem isBlank_of_path {cs : List Char} (h : Path (.start []) cs (.start [])) :
    ∀ c ∈ cs, isBlank c = true := by
  have hspells : ∀ {p text}, Progress.Spells p text → p = .start [] →
      ∀ c ∈ text, isBlank c = true := by
    intro p text hspells hp
    cases hspells with
    | start hcontext lead =>
      cases hp
      cases hcontext
      exact lead.all_blank
    | _ => cases hp
  exact hspells (h.spells (.start .outermost .none)) rfl

theorem ofText_eq_empty_of_isBlank (h : ∀ c ∈ s.toList, isBlank c = true) :
    ofText s = .error .empty := by
  have hlead : Progress.Leads (.start []) s.toList (.start []) := Progress.leads_lead ⟨s.toList, h⟩
  have hrun := hlead 0 []
  rw [List.append_nil] at hrun
  exact hrun

/-- What an error says of the text, by how its reading ended: at a character that is refused, or at
the end of the text. -/
theorem error_cases (h : ofText s = .error e) :
    (∃ (front : String) (c : Char) (back : String) (fault : Nat → SyntaxError),
        s = front.push c ++ back ∧ Viable front ∧ ¬ Viable (front.push c) ∧ Refusal c fault ∧
        e = fault front.utf8ByteSize) ∨
      Viable s ∧ ((e = .empty ∧ ∀ c ∈ s.toList, isBlank c = true) ∨
        e = .expectedName s.utf8ByteSize ∨
        ∃ b, e = .unclosed b ∧ (openBrackets s.toList).head? = some b) := by
  rcases Progress.error_of_run h with
    ⟨front, c, back, q, fault, hs, hpath, hfault, hstep, he⟩ | ⟨q, hpath, hfinish⟩
  · refine .inl ⟨String.ofList front, c, String.ofList back, fault, ?_, viable_of_path hpath,
      not_viable_of_refused hpath hstep, hfault, ?_⟩
    · rw [← String.toList_inj, hs]
      simp
    · rw [he, Nat.zero_add, ← String.utf8Len_toList, String.toList_ofList]
  · have hviable := viable_of_path hpath
    rw [String.ofList_toList] at hviable
    refine .inr ⟨hviable, ?_⟩
    rcases Progress.finish_eq_error hfinish with ⟨he, rfl⟩ | he | ⟨b, he, hb⟩
    · exact .inl ⟨he, isBlank_of_path hpath⟩
    · rw [Nat.zero_add, String.utf8Len_toList] at he
      exact .inr (.inl he)
    · rw [hpath.brackets] at hb
      exact .inr (.inr ⟨b, he, hb⟩)

/-- Errors point at the first offending character: only a blank text is empty; the text in front of
an offset begins a reference and the character at it ends every hope of one; a bracket is reported
as unclosed only where closing it could go on to a reference, and it is the innermost open one. -/
theorem errors_point_at_first_offending (s : String) :
    (ofText s = .error .empty ↔ ∀ c ∈ s.toList, isBlank c = true) ∧
      (∀ o, ofText s = .error (.expectedName o) →
        ∃ front back : String, s = front ++ back ∧ front.utf8ByteSize = o ∧ Viable front ∧
          ∀ c ∈ back.toList.head?, ¬ Viable (front.push c)) ∧
      (∀ found o, ofText s = .error (.unexpected found o) →
        ∃ front back : String, s = front.push found ++ back ∧ front.utf8ByteSize = o ∧
          Viable front ∧ ¬ Viable (front.push found)) ∧
      ∀ b, ofText s = .error (.unclosed b) →
        Viable s ∧ (openBrackets s.toList).head? = some b := by
  refine ⟨⟨fun h => ?_, ofText_eq_empty_of_isBlank⟩, fun o h => ?_, fun found o h => ?_,
    fun b h => ?_⟩
  · rcases error_cases h with ⟨_, _, _, _, _, _, _, hfault, he⟩ | ⟨_, ⟨_, hblank⟩ | he | ⟨_, he, _⟩⟩
    · cases hfault <;> cases he
    · exact hblank
    · cases he
    · cases he
  · rcases error_cases h with ⟨front, c, back, _, hs, hfront, hc, hfault, he⟩ |
      ⟨hs, ⟨he, _⟩ | he | ⟨_, he, _⟩⟩
    · cases hfault <;> cases he
      refine ⟨front, String.singleton c ++ back, ?_, rfl, hfront, ?_⟩
      · rw [hs, ← String.append_assoc, String.append_singleton]
      · intro d hd
        have hd : c = d := by simpa using hd
        rwa [← hd]
    · cases he
    · cases he
      exact ⟨s, "", String.append_empty.symm, rfl, hs, nofun⟩
    · cases he
  · rcases error_cases h with ⟨front, c, back, _, hs, hfront, hc, hfault, he⟩ |
      ⟨_, ⟨he, _⟩ | he | ⟨_, he, _⟩⟩
    · cases hfault <;> cases he
      exact ⟨front, back, hs, rfl, hfront, hc⟩
    · cases he
    · cases he
    · cases he
  · rcases error_cases h with ⟨_, _, _, _, _, _, _, hfault, he⟩ | ⟨hs, ⟨he, _⟩ | he | ⟨_, he, hb⟩⟩
    · cases hfault <;> cases he
    · cases he
    · cases he
    · cases he
      exact ⟨hs, hb⟩

example : ofText "é<" = .error (.expectedName "é<".utf8ByteSize) := by rfl

end Typings.TypeRef
