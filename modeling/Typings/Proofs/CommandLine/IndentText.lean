import Mathlib.Data.Nat.Digits.Defs
import Typings.CommandLine.IndentText

/-! # What is read as an indentation

The loop over the digits of a width keeps in 8 bits what the digits so far write. A further digit
never makes a number smaller, so one that is too large on the way is too large in the end: the loop
gives up exactly where all the digits together write more than 8 bits hold. Zeros in front change
nothing, and no long number comes round to a small one.
-/
namespace Typings.Indent

variable {s : String} {n m : UInt8} {c : Char} {digits : List Char}

/-- The letters of `tab`, each in either case. -/
def SpellsTab (s : String) : Prop :=
  ∃ t a b, s.toList = [t, a, b] ∧ (t = 't' ∨ t = 'T') ∧ (a = 'a' ∨ a = 'A') ∧ (b = 'b' ∨ b = 'B')

/-- One or more digits, perhaps behind a plus sign, and the number that they write. -/
def WritesNumber (s : String) (k : Nat) : Prop :=
  ∃ sign digits : List Char, s.toList = sign ++ digits ∧ (sign = [] ∨ sign = ['+']) ∧
    digits ≠ [] ∧ (∀ c ∈ digits, '0' ≤ c ∧ c ≤ '9') ∧ Nat.ofDigitChars 10 digits 0 = k

/-! ## Letters -/

theorem toNat_toLower (c : Char) : c.toLower.toNat =
    if 'A'.toNat ≤ c.toNat ∧ c.toNat ≤ 'Z'.toNat then c.toNat + 32 else c.toNat := by
  have hupper : c.val ≥ 'A'.val ∧ c.val ≤ 'Z'.val ↔
      'A'.toNat ≤ c.toNat ∧ c.toNat ≤ 'Z'.toNat := by
    simp only [ge_iff_le, UInt32.le_iff_toNat_le]
    exact Iff.rfl
  split
  · next h =>
    have hlower : c.toLower.toNat = (c.val + 32).toNat :=
      congrArg Char.toNat (dif_pos (hupper.mpr h))
    have hsmall : c.toNat + 32 < 2 ^ 32 :=
      Nat.lt_of_le_of_lt (Nat.add_le_add_right h.2 32) (by decide)
    rw [hlower, UInt32.toNat_add]
    exact Nat.mod_eq_of_lt hsmall
  · next h => exact congrArg Char.toNat (dif_neg (hupper.not.mpr h))

theorem toLower_eq_iff {lower upper : Char} (hA : 'A'.toNat ≤ upper.toNat)
    (hZ : upper.toNat ≤ 'Z'.toNat) (h : upper.toNat + 32 = lower.toNat) :
    c.toLower = lower ↔ c = lower ∨ c = upper := by
  rw [← Char.toNat_inj, ← Char.toNat_inj, ← Char.toNat_inj, toNat_toLower]
  have hcase : 'Z'.toNat < 'A'.toNat + 32 := by decide
  split <;> omega

theorem map_toLower_eq_iff : s.toList.map Char.toLower = ['t', 'a', 'b'] ↔ SpellsTab s := by
  have ht : ∀ c : Char, c.toLower = 't' ↔ c = 't' ∨ c = 'T' :=
    fun _ => toLower_eq_iff (by decide) (by decide) (by decide)
  have ha : ∀ c : Char, c.toLower = 'a' ↔ c = 'a' ∨ c = 'A' :=
    fun _ => toLower_eq_iff (by decide) (by decide) (by decide)
  have hb : ∀ c : Char, c.toLower = 'b' ↔ c = 'b' ∨ c = 'B' :=
    fun _ => toLower_eq_iff (by decide) (by decide) (by decide)
  simp only [List.map_eq_cons_iff, List.map_eq_nil_iff, SpellsTab, ht, ha, hb]
  constructor
  · intro h
    obtain ⟨t, _, hs, ht, a, _, rfl, ha, b, _, rfl, hb, rfl⟩ := h
    exact ⟨t, a, b, hs, ht, ha, hb⟩
  · intro h
    obtain ⟨t, a, b, hs, ht, ha, hb⟩ := h
    exact ⟨t, _, hs, ht, a, _, rfl, ha, b, _, rfl, hb, rfl⟩

/-! ## Digits -/

theorem tenfoldPlus?_eq_some_iff {d : UInt8} :
    tenfoldPlus? n d = some m ↔ 10 * n.toNat + d.toNat = m.toNat := by
  have hten : (10 : BitVec 8).toNat = 10 := rfl
  have hproduct : (n * 10).toNat = n.toNat * 10 % 2 ^ 8 := UInt8.toNat_mul n 10
  have hm := m.toNat_lt
  simp only [tenfoldPlus?, BitVec.umulOverflow, BitVec.uaddOverflow, UInt8.toNat_toBitVec, hten,
    hproduct, Bool.or_eq_true, decide_eq_true_eq]
  split
  · next hover =>
    refine iff_of_false nofun fun h => ?_
    omega
  · next hfits =>
    rw [Option.some_inj, ← UInt8.toNat_inj, UInt8.toNat_add, hproduct]
    omega

/-- A digit is taken when the number that it leads to has 8 bits. -/
theorem withDigit?_eq_some_iff : withDigit? n c = some m ↔
    c.isDigit = true ∧ 10 * n.toNat + (c.toNat - '0'.toNat) = m.toNat := by
  unfold withDigit?
  split
  · next hc =>
    have hnine : c.toNat - '0'.toNat < UInt8.size :=
      Nat.lt_of_le_of_lt (Nat.sub_le_sub_right (Char.isDigit_iff_toNat.mp hc).2 _) (by decide)
    rw [tenfoldPlus?_eq_some_iff, UInt8.toNat_ofNat_of_lt' hnine, and_iff_right hc]
  · next hc => simp [hc]

/-- Further digits never make a number smaller. -/
theorem le_ofDigitChars (digits : List Char) (k : Nat) : k ≤ Nat.ofDigitChars 10 digits k := by
  rw [Nat.ofDigitChars_eq_ofDigitChars_zero]
  have hpos : 0 < 10 ^ digits.length := Nat.pow_pos (by decide)
  have hle := Nat.le_mul_of_pos_left k hpos
  omega

theorem foldlM_withDigit?_eq_some_iff : digits.foldlM withDigit? n = some m ↔
    (∀ c ∈ digits, c.isDigit = true) ∧ Nat.ofDigitChars 10 digits n.toNat = m.toNat := by
  induction digits generalizing n with
  | nil => simp [Nat.ofDigitChars, UInt8.toNat_inj]
  | cons c digits ih =>
    rw [List.foldlM_cons, Nat.ofDigitChars_cons, List.forall_mem_cons]
    constructor
    · intro h
      obtain ⟨k, hk, hrest⟩ := Option.bind_eq_some_iff.mp h
      obtain ⟨hc, hvalue⟩ := withDigit?_eq_some_iff.mp hk
      obtain ⟨hall, hm⟩ := ih.mp hrest
      exact ⟨⟨hc, hall⟩, by rw [hvalue, hm]⟩
    · intro h
      obtain ⟨⟨hc, hall⟩, hm⟩ := h
      -- All the digits write a number of 8 bits, so those up to here do.
      have hfits : 10 * n.toNat + (c.toNat - '0'.toNat) < UInt8.size :=
        Nat.lt_of_le_of_lt (le_ofDigitChars digits _) (hm ▸ m.toNat_lt)
      have hvalue := UInt8.toNat_ofNat_of_lt' hfits
      refine Option.bind_eq_some_iff.mpr ⟨_, withDigit?_eq_some_iff.mpr ⟨hc, hvalue.symm⟩, ?_⟩
      exact ih.mpr ⟨hall, by rw [hvalue, hm]⟩

/-! ## Signs -/

theorem isDigit_iff : c.isDigit = true ↔ '0' ≤ c ∧ c ≤ '9' := by
  rw [Char.isDigit, Bool.and_eq_true, decide_eq_true_eq, decide_eq_true_eq]
  exact Iff.rfl

theorem exists_sign (cs : List Char) :
    ∃ sign, cs = sign ++ unsigned cs ∧ (sign = [] ∨ sign = ['+']) := by
  unfold unsigned
  split
  · next h =>
    obtain ⟨rest, rfl⟩ := List.head?_eq_some_iff.mp h
    exact ⟨['+'], rfl, .inr rfl⟩
  · exact ⟨[], rfl, .inl rfl⟩

theorem unsigned_append {sign : List Char} (hsign : sign = [] ∨ sign = ['+'])
    (hdigits : ∀ c ∈ digits, c.isDigit = true) : unsigned (sign ++ digits) = digits := by
  rcases hsign with rfl | rfl
  · refine if_neg fun h => ?_
    have hplus := hdigits '+' (List.mem_of_mem_head? h)
    exact absurd hplus (by decide)
  · rfl

theorem writesNumber_iff {k : Nat} : WritesNumber s k ↔ unsigned s.toList ≠ [] ∧
    (∀ c ∈ unsigned s.toList, c.isDigit = true) ∧
      Nat.ofDigitChars 10 (unsigned s.toList) 0 = k := by
  simp only [WritesNumber, ← isDigit_iff]
  constructor
  · intro h
    obtain ⟨sign, digits, hs, hsign, hne, hall, hk⟩ := h
    rw [hs, unsigned_append hsign hall]
    exact ⟨hne, hall, hk⟩
  · intro h
    obtain ⟨sign, hs, hsign⟩ := exists_sign s.toList
    exact ⟨sign, unsigned s.toList, hs, hsign, h⟩

theorem width?_eq_some_iff : width? s.toList = some m ↔ WritesNumber s m.toNat := by
  rw [writesNumber_iff, width?]
  split
  · next hempty => simp [List.isEmpty_iff.mp hempty]
  · next hne =>
    rw [List.isEmpty_iff] at hne
    rw [foldlM_withDigit?_eq_some_iff, and_iff_right hne]
    exact Iff.rfl

theorem SpellsTab.not_writesNumber (h : SpellsTab s) (k : Nat) : ¬ WritesNumber s k := by
  intro hk
  obtain ⟨sign, digits, hs, hsign, -, hall, -⟩ := hk
  obtain ⟨t, a, b, htab, ht, -, -⟩ := h
  rw [htab] at hs
  rcases hsign with rfl | rfl
  · have hdigit := hall t (by rw [← List.nil_append digits, ← hs]; exact List.mem_cons_self)
    rcases ht with rfl | rfl <;> exact absurd hdigit (by decide)
  · rcases ht with rfl | rfl <;> exact absurd (List.cons.inj hs).1 (by decide)

/-! ## The language -/

theorem ofText_eq_tab_iff : ofText s = .ok .tab ↔ SpellsTab s := by
  rw [← map_toLower_eq_iff, ofText]
  split
  · next h => simp [h]
  · next h =>
    refine iff_of_false ?_ h
    split
    · split <;> nofun
    · nofun

theorem ofText_eq_spaces_iff_exists {k : Nat} : ofText s = .ok (.spaces k) ↔
    ¬ SpellsTab s ∧ ∃ w, width? s.toList = some w ∧ (1 ≤ w ∧ w ≤ maxWidth) ∧ w.toNat = k := by
  rw [← map_toLower_eq_iff, ofText]
  split
  · next h => simp [h]
  · next h =>
    rw [and_iff_right h]
    cases hwidth : width? s.toList with
    | none => simp
    | some w =>
      dsimp only
      split
      · next hw =>
        have hin : 1 ≤ w ∧ w ≤ maxWidth := by simpa using hw
        simp [hin]
      · next hw =>
        have hout : ¬ (1 ≤ w ∧ w ≤ maxWidth) := by simpa using hw
        simp [hout]

theorem ofText_eq_spaces_iff {k : Nat} :
    ofText s = .ok (.spaces k) ↔ WritesNumber s k ∧ 1 ≤ k ∧ k ≤ 16 := by
  have hrange : ∀ w : UInt8, (1 ≤ w ∧ w ≤ maxWidth) ↔ 1 ≤ w.toNat ∧ w.toNat ≤ 16 := by
    intro w
    rw [UInt8.le_iff_toNat_le, UInt8.le_iff_toNat_le]
    exact Iff.rfl
  rw [ofText_eq_spaces_iff_exists]
  constructor
  · intro h
    obtain ⟨-, w, hw, hwidths, rfl⟩ := h
    exact ⟨width?_eq_some_iff.mp hw, (hrange w).mp hwidths⟩
  · intro h
    obtain ⟨hk, hwidths⟩ := h
    have hvalue : (UInt8.ofNat k).toNat = k :=
      UInt8.toNat_ofNat_of_lt' (Nat.lt_of_le_of_lt hwidths.2 (by decide))
    refine ⟨fun htab => htab.not_writesNumber k hk, UInt8.ofNat k, ?_, ?_, hvalue⟩
    · rw [width?_eq_some_iff, hvalue]
      exact hk
    · rw [hrange, hvalue]
      exact hwidths

/-- An error carries the text as it was given. -/
theorem eq_of_ofText_eq_error {e : Invalid} (h : ofText s = .error e) : e = ⟨s⟩ := by
  unfold ofText at h
  split at h
  · cases h
  · split at h
    · split at h
      · cases h
      · exact (Except.error.inj h).symm
    · exact (Except.error.inj h).symm

/-- An indentation is read from its language and from nothing else: `tab` in any case, and the
numbers from 1 to 16 with a plus sign or without, however many zeros they start with. All other
texts are errors that carry the text. -/
theorem ofText_accepts_exactly (s : String) :
    (ofText s = .ok .tab ↔ SpellsTab s) ∧
      (∀ k, ofText s = .ok (.spaces k) ↔ WritesNumber s k ∧ 1 ≤ k ∧ k ≤ 16) ∧
      ∀ e, ofText s = .error e ↔
        e = ⟨s⟩ ∧ ¬ SpellsTab s ∧ ∀ k, WritesNumber s k → ¬ (1 ≤ k ∧ k ≤ 16) := by
  refine ⟨ofText_eq_tab_iff, fun k => ofText_eq_spaces_iff, fun e => ⟨fun h => ?_, ?_⟩⟩
  · refine ⟨eq_of_ofText_eq_error h, fun htab => ?_, fun k hk hrange => ?_⟩
    · rw [ofText_eq_tab_iff.mpr htab] at h
      cases h
    · rw [ofText_eq_spaces_iff.mpr ⟨hk, hrange⟩] at h
      cases h
  · intro herror
    obtain ⟨rfl, htab, hnumber⟩ := herror
    cases h : ofText s with
    | error e => rw [eq_of_ofText_eq_error h]
    | ok indent =>
      cases indent with
      | tab => exact absurd (ofText_eq_tab_iff.mp h) htab
      | spaces k =>
        obtain ⟨hk, hrange⟩ := ofText_eq_spaces_iff.mp h
        exact absurd hrange (hnumber k hk)

end Typings.Indent
