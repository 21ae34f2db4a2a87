import Typings.Proofs.Json.Grammar

/-! # Passing over values

Every value is passed over as a whole, however deep it is, and the text behind it is left
(`Tree.skips`). Strings and numbers are passed over by their spelling alone, so they need not stand
for anything. Inside of brackets the text is taken up behind an opening bracket or behind a value;
`skipNext` is either, so that one induction goes through the values inside.
-/
namespace Typings.Json

variable {cs rest x : List Char} {c : Char} {b : Bracket} {outer : List Bracket} {first : Bool}

/-! ## Strings -/

theorem hexQuad_chars (q : Quad) (rest : List Char) :
    hexQuad (q.chars ++ rest) = .ok (q.value, rest) := by
  show hexQuad (_ :: _ :: _ :: _ :: rest) = _
  simp only [hexQuad, HexDigit.value_eq, Quad.value]

theorem skipString_unit (q : Quad) (rest : List Char) :
    skipString ('\\' :: 'u' :: (q.chars ++ rest)) = skipString rest := by
  rw [skipString, if_neg (by decide), if_pos rfl, if_pos rfl]
  split
  · next h => rw [hexQuad_chars] at h; cases h; rfl
  · next h => rw [hexQuad_chars] at h; cases h

theorem Piece.skips (p : Piece) (rest : List Char) :
    skipString (p.chars ++ rest) = skipString rest := by
  cases p with
  | plain c quote backslash control =>
    show skipString (c :: rest) = _
    rw [skipString.eq_def]
    dsimp only
    rw [if_neg quote, if_neg backslash, if_neg control]
  | letter mark meaning h =>
    show skipString ('\\' :: mark :: rest) = _
    rw [skipString, if_neg (by decide), if_pos rfl, if_neg (ne_u_of_lookup h), if_pos (by rw [h]; rfl)]
  | unit q => exact skipString_unit q rest
  | pair high low =>
    show skipString ('\\' :: 'u' :: ((high.chars ++ '\\' :: 'u' :: low.chars) ++ rest)) = _
    rw [List.append_assoc, skipString_unit]
    exact skipString_unit low rest

theorem skipString_body (ps : List Piece) (rest : List Char) :
    skipString (Piece.body ps ++ rest) = .ok rest := by
  induction ps with
  | nil =>
    show skipString ('"' :: rest) = _
    rw [skipString.eq_def]
    exact if_pos rfl
  | cons p ps ih => rw [Piece.body, List.append_assoc, p.skips, ih]

/-! ## Numbers -/

theorem signed_sign (e : Exponent) (rest : List Char) :
    (signed (e.sign ++ (e.digits.chars ++ rest))).2 = e.digits.chars ++ rest := by
  obtain ⟨c, cs, hcs, hc⟩ := e.digits.exists_chars
  have hminus : c ≠ '-' := ne_of_class hc (by decide)
  have hplus : c ≠ '+' := ne_of_class hc (by decide)
  rcases e.sign_eq with h | h | h
  · rw [h, hcs]
    show (signed (c :: (cs ++ rest))).2 = _
    rw [signed, if_neg hminus, if_neg hplus]
    rfl
  · rw [h]
    rfl
  · rw [h]
    rfl

theorem skipExponent_chars (n : Numeral) (h : Delimited rest) :
    skipExponent (n.exponentChars ++ rest) = .ok rest := by
  rw [Numeral.exponentChars]
  cases n.exponent with
  | none =>
    cases rest with
    | nil => rfl
    | cons c rest =>
      have hc := h.of_class (P := fun c => c = 'e' || c = 'E') (by decide) c rfl
      show skipExponent (c :: rest) = _
      rw [skipExponent, if_neg (Bool.eq_false_iff.mp hc)]
  | some e =>
    obtain ⟨c, cs, hcs, hc⟩ := e.digits.exists_chars
    have hmark : (e.mark = 'e' || e.mark = 'E') = true := by
      simpa using e.mark_eq
    show skipExponent (e.mark :: ((e.sign ++ e.digits.chars) ++ rest)) = _
    rw [List.append_assoc, skipExponent, if_pos hmark, signed_sign,
      e.digits.dropWhile_append h.noDigit, hcs]
    exact if_pos hc

theorem skipFraction_chars (n : Numeral) (h : Delimited rest) :
    skipFraction (n.fractionChars ++ (n.exponentChars ++ rest)) = .ok rest := by
  have hexponent := n.startsIn_exponent h
  have hskip := skipExponent_chars n h
  rw [Numeral.fractionChars]
  cases n.fraction with
  | none =>
    show skipFraction (n.exponentChars ++ rest) = _
    generalize n.exponentChars ++ rest = x at hexponent hskip ⊢
    cases x with
    | nil => exact hskip
    | cons c x =>
      have hc := hexponent.of_class (P := fun c => c = '.') (by decide) c rfl
      rw [skipFraction, if_neg (by simpa using hc), hskip]
  | some d =>
    obtain ⟨c, cs, hcs, hc⟩ := d.exists_chars
    show skipFraction ('.' :: (d.chars ++ (n.exponentChars ++ rest))) = _
    rw [skipFraction, if_pos rfl, d.dropWhile_append (hexponent.of_class (by decide)), hcs, hskip]
    exact if_pos hc

theorem skipMagnitude_unsigned (n : Numeral) (h : Delimited rest) :
    skipMagnitude (n.unsigned ++ rest) = .ok rest := by
  have hdigit : NoDigit (n.fractionChars ++ (n.exponentChars ++ rest)) :=
    (n.startsIn_fraction h).of_class (by decide)
  have hfraction := skipFraction_chars n h
  rw [Numeral.unsigned, List.append_assoc, List.append_assoc]
  generalize n.fractionChars ++ (n.exponentChars ++ rest) = x at hdigit hfraction ⊢
  have hdrop := n.whole.dropWhile_append hdigit
  obtain ⟨c, cs, hcs, hc⟩ := n.whole.exists_chars
  by_cases hzero : c = '0'
  · have hwhole : n.whole.chars = ['0'] := by
      rcases n.leading_zero with h | h
      · exact h
      · rw [hcs, hzero] at h
        exact absurd rfl h
    have hhead : ¬ (x.head?.any Char.isDigit) = true := by
      cases x with
      | nil => exact Bool.false_ne_true
      | cons d x => simpa using hdigit d rfl
    rw [hwhole]
    show skipMagnitude ('0' :: x) = _
    rw [skipMagnitude, if_pos rfl, if_neg hhead, hfraction]
  · rw [hcs, List.cons_append, List.dropWhile_cons_of_pos hc] at hdrop
    rw [hcs, List.cons_append, skipMagnitude, if_neg hzero, if_pos hc, hdrop, hfraction]

theorem skipNumber_chars (n : Numeral) (h : Delimited rest) :
    skipNumber (n.chars ++ rest) = .ok rest := by
  have hskip := skipMagnitude_unsigned n h
  rw [Numeral.chars]
  split
  · exact hskip
  · obtain ⟨c, cs, hcs, hc⟩ := n.exists_unsigned
    rw [hcs] at hskip ⊢
    rw [skipNumber]
    · exact hskip
    · rintro _ heq
      cases heq
      exact absurd hc (by decide)

/-! ## Values without others inside -/

/-- A value that holds no others. -/
def Tree.isScalar : Tree → Bool
  | .list .. | .object .. => false
  | _ => true

theorem skipScalar_chars {t : Tree} (ht : t.isScalar = true) (h : Delimited rest) :
    ∃ c cs, t.chars ++ rest = c :: cs ∧ c ≠ Bracket.list.opening ∧ c ≠ Bracket.object.opening ∧
      skipScalar c cs = .ok rest := by
  cases t with
  | null => exact ⟨_, _, rfl, by decide, by decide, rfl⟩
  | flag value => cases value <;> exact ⟨_, _, rfl, by decide, by decide, rfl⟩
  | number n =>
    obtain ⟨c, cs, hcs, hc⟩ := n.exists_chars
    have hskip := skipNumber_chars n h
    rw [hcs] at hskip
    refine ⟨c, cs ++ rest, by rw [Tree.chars, hcs]; rfl, ne_of_class hc (by decide),
      ne_of_class hc (by decide), ?_⟩
    rw [skipScalar, if_neg (ne_of_class hc (by decide)), if_neg (ne_of_class hc (by decide)),
      if_neg (ne_of_class hc (by decide)), if_neg (ne_of_class hc (by decide)), if_pos hc]
    exact hskip
  | text pieces =>
    refine ⟨'"', Piece.body pieces ++ rest, rfl, by decide, by decide, ?_⟩
    exact skipString_body pieces rest
  | list => cases ht
  | object => cases ht

theorem skip_value_blanks (lead : Blanks) (outer : List Bracket) (cs : List Char) :
    skip .value outer (lead.chars ++ cs) = skip .value outer cs := by
  rw [skip, skip, skipSpace_blanks]

theorem skip_value_scalar {t : Tree} (ht : t.isScalar = true) (h : Delimited rest) :
    skip .value outer (t.chars ++ rest) = skip .after outer rest := by
  obtain ⟨c, cs, hcs, hlist, hobject, hscalar⟩ := skipScalar_chars ht h
  have hspace := skipSpace_tree t rest
  rw [skip.eq_1]
  split
  · next heq => rw [hspace, hcs] at heq; cases heq
  · next heq =>
    rw [hspace, hcs] at heq
    cases heq
    rw [if_neg hlist, if_neg hobject]
    split
    · next hs => rw [hscalar] at hs; cases hs; rfl
    · next hs => rw [hscalar] at hs; cases hs

theorem skip_value_opening (b : Bracket) (outer : List Bracket) (cs : List Char) :
    skip .value outer (b.opening :: cs) = skip (.opened b) outer cs := by
  have hspace : skipSpace (b.opening :: cs) = b.opening :: cs :=
    skipSpace_cons (by cases b <;> decide)
  rw [skip]
  split
  · next heq => rw [hspace] at heq; cases heq
  · next heq =>
    rw [hspace] at heq
    cases heq
    cases b with
    | list => exact if_pos rfl
    | object => rw [if_neg (by decide), if_pos rfl]

/-! ## Values inside of brackets -/

theorem skip_opened (hspace : skipSpace cs = c :: x) :
    skip (.opened b) outer cs = if c = b.closing then skip .after outer x else
      match skipLabel b cs with
      | .ok rest => skip .value (b :: outer) rest
      | .error fault => .error fault := by
  rw [skip.eq_2]
  split
  · next heq => rw [hspace] at heq; cases heq
  · next heq =>
    rw [hspace] at heq
    cases heq
    split
    · rfl
    · split
      · next hl => rw [hl]
      · next hl => rw [hl]

theorem skip_after (hspace : skipSpace cs = c :: x) :
    skip .after (b :: outer) cs = if c = b.closing then skip .after outer x else if c = ',' then
      match skipLabel b x with
      | .ok rest => skip .value (b :: outer) rest
      | .error fault => .error fault
    else .error b.noSeparator := by
  rw [skip.eq_4]
  split
  · next heq => rw [hspace] at heq; cases heq
  · next heq =>
    rw [hspace] at heq
    cases heq
    split
    · rfl
    · split
      · split
        · next hl => rw [hl]
        · next hl => rw [hl]
      · rfl

/-- Passes over what is left inside of a bracket, behind its opening or behind a value inside. -/
def skipNext (first : Bool) (b : Bracket) (outer : List Bracket) (cs : List Char) :
    Except Fault (List Char) :=
  if first then skip (.opened b) outer cs else skip .after (b :: outer) cs

theorem skipNext_closing (gap : Blanks) (rest : List Char) :
    skipNext first b outer (gap.chars ++ b.closing :: rest) = skip .after outer rest := by
  have hspace : skipSpace (gap.chars ++ b.closing :: rest) = b.closing :: rest := by
    rw [skipSpace_blanks, skipSpace_cons (by cases b <;> decide)]
  cases first with
  | true => exact (skip_opened hspace).trans (if_pos rfl)
  | false => exact (skip_after hspace).trans (if_pos rfl)

/-- The next value inside is passed over like any value, once its label has been. Blanks in front of
the label may be left in front of the value. -/
theorem skipNext_more (gap : Blanks) {x y : List Char} (hspace : skipSpace x = c :: y)
    (hc : c ≠ b.closing) (hlabel : ∀ lead : Blanks, ∃ lead' : Blanks,
      skipLabel b (lead.chars ++ x) = .ok (lead'.chars ++ rest)) :
    skipNext first b outer (gap.chars ++ (comma first ++ x)) = skip .value (b :: outer) rest := by
  cases first with
  | true =>
    obtain ⟨lead, hlabel⟩ := hlabel gap
    have hfirst : skipSpace (gap.chars ++ x) = c :: y := by rw [skipSpace_blanks, hspace]
    refine (skip_opened hfirst).trans ?_
    rw [if_neg hc, hlabel]
    exact skip_value_blanks lead _ rest
  | false =>
    obtain ⟨lead, hlabel⟩ := hlabel .none
    have hcomma : skipSpace (gap.chars ++ ',' :: x) = ',' :: x := by
      rw [skipSpace_blanks, skipSpace_cons (by decide)]
    refine (skip_after hcomma).trans ?_
    rw [if_neg (by cases b <;> decide), if_pos rfl]
    rw [Blanks.none, List.nil_append] at hlabel
    rw [hlabel]
    exact skip_value_blanks lead _ rest

theorem colon_gap (gap : Blanks) (rest : List Char) :
    colon (gap.chars ++ ':' :: rest) = .ok rest := by
  rw [colon, skipSpace_blanks, skipSpace_cons (by decide)]
  exact if_pos rfl

theorem skipNext_item (gap lead : Blanks) (t : Tree) (rest : List Char) :
    skipNext first .list outer (gap.chars ++ (comma first ++ (lead.chars ++ (t.chars ++ rest)))) =
      skip .value (.list :: outer) (t.chars ++ rest) := by
  obtain ⟨c, cs, hcs, hc⟩ := t.exists_chars
  have hspace : skipSpace (lead.chars ++ (t.chars ++ rest)) = c :: (cs ++ rest) := by
    rw [skipSpace_blanks, skipSpace_tree, hcs, List.cons_append]
  have hclosing : c ≠ Bracket.list.closing := fun h => hc (h ▸ by decide)
  rw [← skip_value_blanks lead]
  exact skipNext_more gap hspace hclosing fun lead' => ⟨lead', rfl⟩

theorem skipNext_member (gap lead : Blanks) (key : List Piece) (gap' : Blanks) (rest : List Char) :
    skipNext first .object outer (gap.chars ++ (comma first ++ (lead.chars ++
      '"' :: (Piece.body key ++ (gap'.chars ++ ':' :: rest))))) =
      skip .value (.object :: outer) rest := by
  have hspace : ∀ x, skipSpace (lead.chars ++ '"' :: x) = '"' :: x := by
    intro x
    rw [skipSpace_blanks, skipSpace_cons (by decide)]
  refine skipNext_more gap (hspace _) (by decide) fun lead' => ⟨.none, ?_⟩
  rw [skipLabel, skipSpace_blanks, hspace]
  dsimp only
  rw [if_pos rfl, skipString_body]
  exact colon_gap gap' rest

mutual

theorem Tree.skips : ∀ (t : Tree) (outer : List Bracket) {rest : List Char}, Delimited rest →
    skip .value outer (t.chars ++ rest) = skip .after outer rest
  | .null, _, _, h => skip_value_scalar rfl h
  | .flag _, _, _, h => skip_value_scalar rfl h
  | .number _, _, _, h => skip_value_scalar rfl h
  | .text _, _, _, h => skip_value_scalar rfl h
  | .list inner items, outer, rest, _ => by
    have hinside := Item.skips items true inner outer rest
    rw [Tree.chars, List.cons_append, List.append_assoc]
    exact (skip_value_opening .list outer _).trans hinside
  | .object inner members, outer, rest, _ => by
    have hinside := Member.skips members true inner outer rest
    rw [Tree.chars, List.cons_append, List.append_assoc]
    exact (skip_value_opening .object outer _).trans hinside

theorem Item.skips : ∀ (items : List Item) (first : Bool) (gap : Blanks) (outer : List Bracket)
    (rest : List Char), skipNext first .list outer
      (gap.chars ++ (Item.charsFrom first items ++ rest)) = skip .after outer rest
  | [], _, gap, outer, rest => skipNext_closing gap rest
  | .mk lead value trail :: items, first, gap, outer, rest => by
    have hvalue := Tree.skips value (.list :: outer)
      ((Item.delimited_charsFrom items rest).blanks trail)
    have hmore := Item.skips items false trail outer rest
    rw [Item.charsFrom, Item.chars]
    simp only [List.append_assoc]
    rw [skipNext_item, hvalue]
    exact hmore

theorem Member.skips : ∀ (members : List Member) (first : Bool) (gap : Blanks)
    (outer : List Bracket) (rest : List Char), skipNext first .object outer
      (gap.chars ++ (Member.charsFrom first members ++ rest)) = skip .after outer rest
  | [], _, gap, outer, rest => skipNext_closing gap rest
  | .mk lead key gap' (.mk lead' value trail) :: members, first, gap, outer, rest => by
    have hvalue := Tree.skips value (.object :: outer)
      ((Member.delimited_charsFrom members rest).blanks trail)
    have hmore := Member.skips members false trail outer rest
    rw [Member.charsFrom, Member.chars, Item.chars]
    simp only [List.append_assoc, List.cons_append]
    rw [skipNext_member, skip_value_blanks, hvalue]
    exact hmore

end

/-- Every value is passed over as a whole. -/
theorem skipValue_tree (lead : Blanks) (t : Tree) (h : Delimited rest) :
    skipValue (lead.chars ++ (t.chars ++ rest)) = .ok rest := by
  rw [skipValue, skip_value_blanks, t.skips [] h, skip]

end Typings.Json
