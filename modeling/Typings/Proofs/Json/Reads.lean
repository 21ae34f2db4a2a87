import Typings.Json.Container
import Typings.Proofs.Json.Passing
import Typings.Proofs.Json.Presentation

/-! # Reading what is presented

A reader reads a presentation when it takes every value off every text that writes it, and leaves
what follows. Strings are read piece by piece, whole numbers digit by digit as long as they fit, and
lists item by item; each way to put readers together reads what its parts do.
-/
namespace Typings.Json

variable {α β : Type} {rest x : List Char} {c : Char}

/-! ## Strings -/

theorem lowSurrogate_chars (q : Quad) (h : isLowSurrogate q.value = true) (rest : List Char) :
    lowSurrogate ('\\' :: 'u' :: (q.chars ++ rest)) = .ok (q.value, rest) := by
  rw [lowSurrogate, if_neg (by decide), if_neg (by decide), hexQuad_chars]
  exact if_pos h

theorem numericEscape_unit (q : Quad) (hlow : isLowSurrogate q.value = false)
    (hhigh : isHighSurrogate q.value = false) (rest : List Char) :
    numericEscape (q.chars ++ rest) = .ok (Char.ofNat q.value, rest) := by
  rw [numericEscape, hexQuad_chars]
  simp only [hlow, hhigh]
  rfl

theorem not_isLowSurrogate {n : Nat} (h : isHighSurrogate n = true) : isLowSurrogate n = false := by
  simp only [isHighSurrogate, isLowSurrogate, Bool.and_eq_true, decide_eq_true_eq] at h ⊢
  simp only [Bool.and_eq_false_iff, decide_eq_false_iff_not]
  omega

theorem numericEscape_pair (high low : Quad) (hhigh : isHighSurrogate high.value = true)
    (hlow : isLowSurrogate low.value = true) (rest : List Char) :
    numericEscape (high.chars ++ '\\' :: 'u' :: (low.chars ++ rest)) =
      .ok (surrogatePair high.value low.value, rest) := by
  rw [numericEscape, hexQuad_chars]
  simp only [not_isLowSurrogate hhigh, hhigh, lowSurrogate_chars low hlow]
  rfl

theorem stringBody_escape {cs : List Char} (h : escape cs = .ok (c, rest)) :
    stringBody ('\\' :: cs) = (stringBody rest).map fun s => (c :: s.1, s.2) := by
  rw [stringBody, if_neg (by decide), if_pos rfl]
  split
  · next he => rw [h] at he; cases he
  · next he =>
    rw [h] at he
    cases he
    cases stringBody rest <;> rfl

theorem Piece.reads {p : Piece} (h : p.meaning? = some c) (rest : List Char) :
    stringBody (p.chars ++ rest) = (stringBody rest).map fun s => (c :: s.1, s.2) := by
  cases p with
  | plain d quote backslash control =>
    cases h
    show stringBody (c :: rest) = _
    rw [stringBody, if_neg quote, if_neg backslash, if_neg control]
    cases stringBody rest <;> rfl
  | letter mark meaning hletter =>
    cases h
    refine stringBody_escape ?_
    show escape (mark :: rest) = _
    rw [escape, if_neg (ne_u_of_lookup hletter), hletter]
  | unit q =>
    rw [meaning?] at h
    split at h
    · cases h
    · next hq =>
      cases h
      rw [Bool.or_eq_true, not_or, Bool.not_eq_true, Bool.not_eq_true] at hq
      refine stringBody_escape ?_
      show escape ('u' :: (q.chars ++ rest)) = _
      rw [escape, if_pos rfl, numericEscape_unit q hq.1 hq.2]
  | pair high low hhigh hlow =>
    obtain rfl : surrogatePair high.value low.value = c := Option.some.inj h
    refine stringBody_escape ?_
    show escape ('u' :: ((high.chars ++ '\\' :: 'u' :: low.chars) ++ rest)) = _
    rw [List.append_assoc, escape, if_pos rfl]
    exact numericEscape_pair high low hhigh hlow rest

theorem stringBody_body {ps : List Piece} {cs : List Char} (h : Piece.meanings? ps = some cs)
    (rest : List Char) : stringBody (Piece.body ps ++ rest) = .ok (cs, rest) := by
  induction ps generalizing cs with
  | nil =>
    cases h
    show stringBody ('"' :: rest) = _
    rw [stringBody, if_pos rfl]
  | cons p ps ih =>
    rw [Piece.meanings?] at h
    split at h
    · next hp hps =>
      cases h
      rw [Piece.body, List.append_assoc, Piece.reads hp, ih hps]
      rfl
    · cases h

/-! ## Numbers -/

theorem le_digitsValue_from (ds : List Char) (m : Nat) :
    m ≤ ds.foldl (fun n d => n * 10 + digitValue d) m := by
  induction ds generalizing m with
  | nil => exact Nat.le_refl m
  | cons d ds ih =>
    rw [List.foldl_cons]
    exact Nat.le_trans (by omega) (ih (m * 10 + digitValue d))

theorem absorb_of_lt {ds : List Char} {m : Nat}
    (h : ds.foldl (fun n d => n * 10 + digitValue d) m < UInt64.size) :
    absorb m ds = (ds.foldl (fun n d => n * 10 + digitValue d) m, []) := by
  induction ds generalizing m with
  | nil => rfl
  | cons d ds ih =>
    rw [List.foldl_cons] at h
    have hnext := Nat.lt_of_le_of_lt (le_digitsValue_from ds (m * 10 + digitValue d)) h
    rw [absorb, if_pos hnext, ih h, List.foldl_cons]

theorem afterWhole_delimited (h : Delimited rest) (negative : Bool) (m : Nat) :
    afterWhole negative m 0 rest = .ok (wholeNumber negative m, rest) := by
  cases rest with
  | nil => rfl
  | cons c rest =>
    have hpoint := h.of_class (P := fun c => c = '.') (by decide) c rfl
    have hmark := h.of_class (P := fun c => c = 'e' || c = 'E') (by decide) c rfl
    rw [afterWhole, if_neg (by simpa using hpoint), if_neg (Bool.eq_false_iff.mp hmark), if_pos rfl]

/-- Without point and exponent, all digits are whole ones. -/
theorem magnitude_whole {n : Numeral} (hfraction : n.fraction = none)
    (hexponent : n.exponent = none) (h : Delimited rest) (negative : Bool) :
    magnitude negative (n.unsigned ++ rest) =
      afterWhole negative (absorb 0 n.whole.chars).1 (absorb 0 n.whole.chars).2.length rest := by
  have hchars : n.unsigned = n.whole.chars := by
    rw [Numeral.unsigned, Numeral.fractionChars, Numeral.exponentChars, hfraction, hexponent]
    exact List.append_nil _
  have htake := n.whole.takeWhile_append h.noDigit
  have hdrop := n.whole.dropWhile_append h.noDigit
  obtain ⟨c, cs, hcs, hc⟩ := n.whole.exists_chars
  rw [hchars]
  by_cases hzero : c = '0'
  · have hwhole : n.whole.chars = ['0'] := n.whole_eq_zero (by rw [hcs, hzero]; rfl)
    have hhead : ¬ (rest.head?.any Char.isDigit) = true := by
      cases rest with
      | nil => exact Bool.false_ne_true
      | cons d rest => simpa using h.noDigit d rfl
    rw [hwhole]
    show magnitude negative ('0' :: rest) = _
    rw [magnitude, if_pos rfl, if_neg hhead]
    rfl
  · rw [hcs, List.cons_append] at htake hdrop ⊢
    rw [magnitude, if_neg hzero, if_pos hc, htake, hdrop]

/-- A whole number of at most 64 bits is read exactly. -/
theorem magnitude_unsigned {n : Numeral} (hfraction : n.fraction = none)
    (hexponent : n.exponent = none) (hsize : n.whole.value < UInt64.size) (h : Delimited rest)
    (negative : Bool) : magnitude negative (n.unsigned ++ rest) =
      .ok (wholeNumber negative n.whole.value, rest) := by
  have habsorb : absorb 0 n.whole.chars = (n.whole.value, []) := absorb_of_lt hsize
  rw [magnitude_whole hfraction hexponent h, habsorb]
  exact afterWhole_delimited h negative _

/-- A numeral is its sign and its magnitude. -/
theorem number_numeral (n : Numeral) (rest : List Char) :
    number (n.chars ++ rest) = magnitude n.negative (n.unsigned ++ rest) := by
  rw [Numeral.chars]
  cases n.negative with
  | true => rfl
  | false =>
    obtain ⟨c, cs, hcs, hc⟩ := n.exists_unsigned
    show number (n.unsigned ++ rest) = _
    rw [hcs, number]
    rintro _ heq
    cases heq
    exact absurd hc (by decide)

/-- The whole numbers that are read exactly. -/
def FitsNumber (value : Int) : Prop := Int64.minValue.toInt ≤ value ∧ value < UInt64.size

theorem fitsNumber_iff {value : Int} : FitsNumber value ↔
    -9223372036854775808 ≤ value ∧ value < 18446744073709551616 := Iff.rfl

theorem wholeNumber_eq {n : Numeral} {value : Int} (hn : n.Writes value)
    (hvalue : FitsNumber value) : wholeNumber n.negative n.whole.value = .integer value := by
  have hmin := hvalue.1
  rw [hn.value_eq] at hmin ⊢
  cases hsign : n.negative with
  | false => rfl
  | true =>
    have hpos : 0 < n.whole.value := Nat.pos_of_ne_zero (hn.nonzero hsign)
    rw [hsign, if_pos rfl] at hmin
    have hfits : (0 < n.whole.value && Int64.minValue.toInt ≤ -(n.whole.value : Int)) = true := by
      rw [Bool.and_eq_true, decide_eq_true_eq, decide_eq_true_eq]
      exact ⟨hpos, hmin⟩
    rw [wholeNumber, if_neg (by decide), if_pos hfits]
    rfl

theorem Numeral.Writes.whole_lt {n : Numeral} {value : Int} (hn : n.Writes value)
    (hvalue : FitsNumber value) : n.whole.value < UInt64.size := by
  obtain ⟨hmin, hmax⟩ := fitsNumber_iff.mp hvalue
  have hsize : UInt64.size = 18446744073709551616 := rfl
  rw [hn.value_eq] at hmin hmax
  cases hsign : n.negative with
  | true => rw [hsign, if_pos rfl] at hmin; omega
  | false => rw [hsign, if_neg Bool.false_ne_true] at hmax; omega

/-- A whole number of at most 64 bits is read exactly. -/
theorem number_chars {n : Numeral} {value : Int} (hn : n.Writes value) (hvalue : FitsNumber value)
    (h : Delimited rest) : number (n.chars ++ rest) = .ok (.integer value, rest) := by
  rw [number_numeral, magnitude_unsigned hn.no_fraction hn.no_exponent (hn.whole_lt hvalue) h,
    wholeNumber_eq hn hvalue]

/-! ## Values without others inside -/

namespace Reader

/-- The reader takes every value off every text that writes it, and leaves what follows. -/
def Reads (r : Reader α) (W : Presentation α) : Prop :=
  ∀ a t, W a t → ∀ (lead : Blanks) (rest : List Char), Delimited rest →
    r.run (lead.chars ++ (t.chars ++ rest)) = .ok (a, rest)

/-- A reader that goes by the first character goes by that of the value behind the blanks. -/
theorem run_eq (r : Reader α) {f : Char → List Char → Except Fault (α × List Char)}
    (hr : ∀ cs, r.run cs = match skipSpace cs with
      | [] => .error .endOfValue
      | c :: rest => f c rest)
    (t : Tree) {cs : List Char} (hcs : t.chars = c :: cs) (lead : Blanks) (rest : List Char) :
    r.run (lead.chars ++ (t.chars ++ rest)) = f c (cs ++ rest) := by
  rw [hr, skipSpace_blanks, skipSpace_tree, hcs]
  rfl

theorem Reads.tryMap {r : Reader α} {W : Presentation α} {V : Presentation β}
    {f : α → Except Fault β} (h : r.Reads W) (hf : ∀ b t, V b t → ∃ a, W a t ∧ f a = .ok b) :
    (r.tryMap f).Reads V := by
  intro b t hb lead rest hrest
  obtain ⟨a, ha, hfa⟩ := hf b t hb
  show onValue f (r.run _) = _
  rw [h a t ha lead rest hrest, onValue, hfa]

theorem Reads.map {r : Reader α} {W : Presentation α} {V : Presentation β} {f : α → β}
    (h : r.Reads W) (hf : ∀ b t, V b t → ∃ a, W a t ∧ f a = b) : (r.map f).Reads V :=
  h.tryMap fun b t hb => by
    obtain ⟨a, ha, hfa⟩ := hf b t hb
    exact ⟨a, ha, congrArg Except.ok hfa⟩

theorem reads_text : text.Reads Presentation.text := by
  intro s t ht lead rest hrest
  obtain ⟨pieces, rfl, hpieces⟩ := ht
  obtain ⟨cs, hcs, rfl⟩ := Option.map_eq_some_iff.mp hpieces
  refine (text.run_eq (fun _ => rfl) (.text pieces) rfl lead rest).trans ?_
  rw [if_pos rfl, stringBody_body hcs]
  rfl

theorem reads_flag : flag.Reads Presentation.flag := by
  intro value t ht lead rest hrest
  cases ht
  cases value with
  | true => exact flag.run_eq (fun _ => rfl) (.flag true) rfl lead rest
  | false => exact flag.run_eq (fun _ => rfl) (.flag false) rfl lead rest

theorem token_number {n : Numeral} {value : Int} (hn : n.Writes value) (hmin : 0 ≤ value)
    (hmax : value < UInt32.size) (lead : Blanks) (h : Delimited rest) :
    token.run (lead.chars ++ ((Tree.number n).chars ++ rest)) =
      .ok (UInt32.ofNat value.toNat, rest) := by
  have hfits : FitsNumber value := by
    have hsize : UInt32.size = 4294967296 := rfl
    rw [fitsNumber_iff]
    omega
  have hsmall : (0 ≤ value && value < UInt32.size) = true := by
    rw [Bool.and_eq_true, decide_eq_true_eq, decide_eq_true_eq]
    exact ⟨hmin, hmax⟩
  have hread := number_chars hn hfits h
  obtain ⟨c, cs, hcs, hc⟩ := n.exists_chars
  refine (token.run_eq (fun _ => rfl) (.number n) hcs lead rest).trans ?_
  rw [hcs, List.cons_append] at hread
  rw [if_pos hc, hread]
  simp only [onValue, hsmall, if_true]

theorem reads_token : token.Reads fun value t => Presentation.integer value.toNat t := by
  intro value t ht lead rest hrest
  obtain ⟨n, rfl, hn⟩ := ht
  have hmax : (value.toNat : Int) < UInt32.size := Int.ofNat_lt.mpr value.toNat_lt_size
  have hread := token_number hn (Int.natCast_nonneg _) hmax lead hrest
  rwa [Int.toNat_natCast, UInt32.ofNat_toNat] at hread

theorem reads_null : null.Reads fun _ t => t = .null := by
  intro _ t ht lead rest hrest
  cases ht
  exact null.run_eq (fun _ => rfl) .null rfl lead rest

theorem Reads.optional {r : Reader α} {W : Presentation α} (h : r.Reads W)
    (hnull : W.NeverNull) : r.optional.Reads (Presentation.optional W) := by
  intro o t ht lead rest hrest
  rw [Reader.optional]
  dsimp only
  rw [skipSpace_blanks, skipSpace_tree]
  cases o with
  | none =>
    cases ht
    have hread : (null.map fun _ => (none : Option α)).Reads fun o t => o = none ∧ t = .null :=
      reads_null.map fun _ _ h => ⟨(), h.2, h.1.symm⟩
    exact (if_pos rfl).trans (hread none .null ⟨rfl, rfl⟩ lead rest hrest)
  | some a =>
    have hread : (r.map some).Reads fun o t => ∃ a, o = some a ∧ W a t :=
      h.map fun _ _ ⟨a, ho, ha⟩ => ⟨a, ha, ho.symm⟩
    have hhead : (t.chars ++ rest).head? ≠ some 'n' := by
      refine t.head?_ne ?_ rest
      rintro rfl
      exact hnull a ht
    exact (if_neg hhead).trans (hread (some a) t ⟨a, rfl, ht⟩ lead rest hrest)

end Reader

/-! ## Lists -/

theorem nextElement_closing (first : Bool) (gap : Blanks) (rest : List Char) :
    nextElement first (gap.chars ++ ']' :: rest) = .ok (.closed rest) := by
  rw [nextElement, skipSpace_blanks, skipSpace_cons (by decide)]
  exact if_pos rfl

theorem nextElement_item (first : Bool) (gap lead : Blanks) (t : Tree) (rest : List Char) :
    nextElement first (gap.chars ++ (comma first ++ (lead.chars ++ (t.chars ++ rest)))) =
      .ok (.more () (t.chars ++ rest)) := by
  obtain ⟨c, cs, hcs, hc⟩ := t.exists_chars
  have hspace : skipSpace (lead.chars ++ (t.chars ++ rest)) = c :: (cs ++ rest) := by
    rw [skipSpace_blanks, skipSpace_tree, hcs, List.cons_append]
  have hclosing : c ≠ ']' := fun h => hc (h ▸ by decide)
  rw [nextElement, skipSpace_blanks]
  cases first with
  | true =>
    rw [comma, List.nil_append, hspace]
    dsimp only
    rw [if_neg hclosing, if_pos rfl, hcs]
    rfl
  | false =>
    rw [comma, List.singleton_append, skipSpace_cons (by decide)]
    dsimp only
    rw [if_neg (by decide), if_neg Bool.false_ne_true, if_pos rfl, hspace]
    dsimp only
    rw [if_neg hclosing, hcs]
    rfl

section Lists

variable {item : Reader α} {first : Bool} {cs start : List Char} {a : α}

theorem elements_closed (h : nextElement first cs = .ok (.closed rest)) :
    elements item first cs = .ok ([], rest) := by
  rw [elements.eq_def]
  split
  · next hn => rw [h] at hn; cases hn
  · next hn => rw [h] at hn; cases hn; rfl
  · next hn => rw [h] at hn; cases hn

theorem elements_more (h : nextElement first cs = .ok (.more () start))
    (hi : item.run start = .ok (a, rest)) :
    elements item first cs = (elements item false rest).map fun r => (a :: r.1, r.2) := by
  rw [elements.eq_def]
  split
  · next hn => rw [h] at hn; cases hn
  · next hn => rw [h] at hn; cases hn
  · next hn =>
    rw [h] at hn
    cases hn
    split
    · next hr => rw [hi] at hr; cases hr
    · next hr =>
      rw [hi] at hr
      cases hr
      cases elements item false rest <;> rfl

/-- The items are read one by one, by induction on how many there are. -/
theorem elements_items {W : Presentation α} (h : item.Reads W) {as : List α} {items : List Item}
    (has : List.Forall₂ (fun a item => W a item.value) as items) (first : Bool) (gap : Blanks)
    (rest : List Char) :
    elements item first (gap.chars ++ (Item.charsFrom first items ++ rest)) = .ok (as, rest) := by
  induction has generalizing first gap with
  | nil => exact elements_closed (nextElement_closing first gap rest)
  | @cons a i as items ha has ih =>
    obtain ⟨lead, value, trail⟩ := i
    have hvalue := h a value ha .none _ ((Item.delimited_charsFrom items rest).blanks trail)
    rw [Item.charsFrom, Item.chars]
    simp only [List.append_assoc]
    rw [elements_more (nextElement_item first gap lead value _) hvalue, ih false trail]
    rfl

end Lists

theorem Reader.Reads.list {item : Nat → Reader α} {W : Presentation α} {levels : Nat}
    (h : (item levels).Reads W) : (Reader.list item (levels + 1)).Reads (.list W) := by
  intro as t ht lead rest hrest
  obtain ⟨inner, items, rfl, has⟩ := ht
  refine ((Reader.list item (levels + 1)).run_eq (fun _ => rfl) (.list inner items) rfl lead
    rest).trans ?_
  rw [List.append_assoc]
  exact elements_items h has true inner rest

/-! ## Whole texts -/

/-- A text that is the value between blanks is read as the value. -/
theorem Reader.Reads.document {r : Nat → Reader α} {W : Presentation α} (h : (r maxLevels).Reads W)
    {a : α} {text : String} (htext : W.Document a text) : Reader.document r text = .ok a := by
  obtain ⟨lead, t, trail, ht, htext⟩ := htext
  have hnil : Delimited [] := nofun
  have hend : Delimited (trail.chars ++ []) := hnil.blanks trail
  have hblank : skipSpace (trail.chars ++ []) = [] := skipSpace_blanks trail []
  rw [List.append_nil] at hend hblank
  rw [Reader.document, htext, h a t ht lead trail.chars hend]
  exact if_pos (by rw [hblank]; rfl)

end Typings.Json
