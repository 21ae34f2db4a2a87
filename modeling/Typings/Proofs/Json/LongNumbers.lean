import Typings.Proofs.Decimal.Overflow
import Typings.Proofs.Json.Reads

/-! # Whole numbers beyond 64 bits

The digits of a long number are taken up one by one while they fit, and the others are counted: the
number lies between the significand taken up and the next one, each with as many zeros as digits are
left (`Absorbed`). So whether there is a double for it depends on the number alone.
-/
namespace Typings.Json

open Typings.Decimal

variable {rest : List Char}

/-! ## Taking up digits -/

/-- The number that goes on with some digits. -/
def valueFrom (m : Nat) (ds : List Char) : Nat := ds.foldl (fun n d => n * 10 + digitValue d) m

theorem digitValue_le {c : Char} (h : c.isDigit = true) : digitValue c ≤ 9 := by
  have hmost : c.toNat ≤ 57 := (Char.isDigit_iff_toNat.mp h).2
  show c.toNat - 48 ≤ 9
  omega

/-- Each digit stands for one of ten parts of the place before it. -/
theorem valueFrom_bounds {ds : List Char} (hds : ∀ c ∈ ds, c.isDigit = true) (m : Nat) :
    m * 10 ^ ds.length ≤ valueFrom m ds ∧ valueFrom m ds < (m + 1) * 10 ^ ds.length := by
  induction ds generalizing m with
  | nil =>
    show m * 1 ≤ m ∧ m < (m + 1) * 1
    omega
  | cons d ds ih =>
    have hdigit := digitValue_le (hds d List.mem_cons_self)
    obtain ⟨hlow, hhigh⟩ :=
      ih (fun c hc => hds c (List.mem_cons_of_mem d hc)) (m * 10 + digitValue d)
    have hplace : ∀ x, x * 10 ^ (d :: ds).length = x * 10 * 10 ^ ds.length := by
      intro x
      rw [List.length_cons, Nat.pow_succ']
      exact (Nat.mul_assoc ..).symm
    rw [hplace, hplace]
    exact ⟨Nat.le_trans (Nat.mul_le_mul_right _ (Nat.le_add_right ..)) hlow,
      Nat.lt_of_lt_of_le hhigh (Nat.mul_le_mul_right _ (by omega))⟩

/-- The digits are taken up into the significand as far as it fits 64 bits; the others are left. -/
structure Absorbed (m : Nat) (ds : List Char) (significand : Nat) (left : List Char) : Prop where
  fits : significand < 2 ^ 64
  value_eq : valueFrom m ds = valueFrom significand left
  all_digit : ∀ c ∈ left, c.isDigit = true
  filled : left ≠ [] → leastFilled ≤ significand

theorem absorbed {ds : List Char} (hds : ∀ c ∈ ds, c.isDigit = true) {m : Nat} (hm : m < 2 ^ 64) :
    Absorbed m ds (absorb m ds).1 (absorb m ds).2 := by
  induction ds generalizing m with
  | nil => exact ⟨hm, rfl, hds, fun h => absurd rfl h⟩
  | cons d ds ih =>
    rw [absorb]
    split
    · next hfits =>
      obtain ⟨hsignificand, hvalue, hdigits, hfilled⟩ :=
        ih (fun c hc => hds c (List.mem_cons_of_mem d hc)) hfits
      exact ⟨hsignificand, hvalue, hdigits, hfilled⟩
    · next hfull =>
      have hdigit := digitValue_le (hds d List.mem_cons_self)
      refine ⟨hm, rfl, hds, fun _ => ?_⟩
      rw [UInt64.size] at hfull
      rw [leastFilled]
      omega

/-- Whether there is a double depends on the number alone. -/
theorem Absorbed.scaled?_eq_none_iff {m s : Nat} {ds left : List Char} (h : Absorbed m ds s left)
    (hleft : left ≠ []) : scaled? s left.length = none ↔ leastRefused ≤ valueFrom m ds := by
  have hfilled := h.filled hleft
  have hfits := h.fits
  rw [Decimal.scaled?_eq_none_iff hfilled hfits, h.value_eq]
  obtain ⟨hlow, hhigh⟩ := valueFrom_bounds h.all_digit s
  rcases Nat.lt_trichotomy left.length 289 with hless | heq | hmore
  · have hsmall : valueFrom s left < leastRefused :=
      calc valueFrom s left < (s + 1) * 10 ^ left.length := hhigh
        _ ≤ 2 ^ 64 * 10 ^ 288 :=
          Nat.mul_le_mul hfits (Nat.pow_le_pow_right (by decide) (by omega))
        _ ≤ leastRefused := by decide +kernel
    exact ⟨fun h => by omega, fun h => absurd h (Nat.not_le.mpr hsmall)⟩
  · rw [heq] at hlow hhigh
    have hnot : ¬ 289 < left.length := by omega
    refine ⟨fun h => ?_, fun h => .inr ⟨heq, ?_⟩⟩
    · have hmost := (h.resolve_left hnot).2
      exact Nat.le_trans (Nat.mul_le_mul_right _ hmost) hlow
    · have hnext : leastOverflowing < s + 1 :=
        Nat.lt_of_mul_lt_mul_right (Nat.lt_of_le_of_lt h hhigh)
      omega
  · have hlarge : leastRefused ≤ valueFrom s left :=
      calc leastRefused ≤ leastFilled * 10 ^ 290 := by decide +kernel
        _ ≤ s * 10 ^ left.length :=
          Nat.mul_le_mul hfilled (Nat.pow_le_pow_right (by decide) hmore)
        _ ≤ valueFrom s left := hlow
    exact ⟨fun _ => hlarge, fun _ => .inl hmore⟩

/-! ## Reading them -/

theorem afterWhole_dropped (h : Delimited rest) (negative : Bool) (m : Nat) {dropped : Nat}
    (hdropped : dropped ≠ 0) :
    afterWhole negative m dropped rest = (floatOf negative m dropped).map (·, rest) := by
  cases rest with
  | nil => exact if_neg hdropped
  | cons c rest =>
    have hpoint := h.of_class (P := fun c => c = '.') (by decide) c rfl
    have hmark := h.of_class (P := fun c => c = 'e' || c = 'E') (by decide) c rfl
    rw [afterWhole, if_neg (by simpa using hpoint), if_neg (Bool.eq_false_iff.mp hmark),
      if_neg hdropped]

/-- What is too small for 64 bits but has no more digits is a double. -/
theorem wholeNumber_below {s : Nat} (h : ¬ Int64.minValue.toInt ≤ -(s : Int)) :
    wholeNumber true s = .float (-s.toUInt64.toFloat) := by
  rw [wholeNumber, if_neg (by decide), if_neg]
  rw [Bool.and_eq_true, decide_eq_true_eq, decide_eq_true_eq]
  exact fun hboth => h hboth.2

/-- A whole number that does not fit is a double, unless it is so large that there is none. -/
theorem number_beyond {n : Numeral} {value : Int} (hn : n.Writes value)
    (hbeyond : ¬ FitsNumber value) (h : Delimited rest) :
    (value.natAbs < leastRefused → ∃ x, number (n.chars ++ rest) = .ok (.float x, rest)) ∧
      (leastRefused ≤ value.natAbs → number (n.chars ++ rest) = .error .numberOutOfRange) := by
  have hvalue : value.natAbs = valueFrom 0 n.whole.chars := by
    show value.natAbs = n.whole.value
    rw [hn.value_eq]
    split <;> simp
  have habsorbed := absorbed n.whole.all_digit (show 0 < 2 ^ 64 by decide)
  rw [number_numeral, magnitude_whole hn.no_fraction hn.no_exponent h]
  generalize absorb 0 n.whole.chars = taken at habsorbed
  obtain ⟨s, left⟩ := taken
  by_cases hleft : left = []
  · subst hleft
    have hs : value.natAbs = s := hvalue.trans habsorbed.value_eq
    have hfits : s < 2 ^ 64 := habsorbed.fits
    have hroom : 2 ^ 64 ≤ leastRefused := by decide +kernel
    rw [fitsNumber_iff] at hbeyond
    have hbelow : ¬ Int64.minValue.toInt ≤ -(s : Int) := by
      show ¬ -9223372036854775808 ≤ -(s : Int)
      omega
    have hsign : n.negative = true := by
      refine Bool.of_not_eq_false fun hpositive => ?_
      have hwhole := hn.value_eq
      rw [hpositive, if_neg Bool.false_ne_true] at hwhole
      omega
    refine ⟨fun _ => ⟨-s.toUInt64.toFloat, ?_⟩, fun hle => absurd hle (by omega)⟩
    rw [hsign, ← wholeNumber_below hbelow]
    exact afterWhole_delimited h true s
  · have hnone := habsorbed.scaled?_eq_none_iff hleft
    have hdropped : left.length ≠ 0 := fun hl => hleft (List.length_eq_zero_iff.mp hl)
    rw [afterWhole_dropped h n.negative s hdropped, floatOf, hvalue]
    cases hscaled : scaled? s left.length with
    | none => exact ⟨fun hlt => absurd (hnone.mp hscaled) (Nat.not_le.mpr hlt), fun _ => rfl⟩
    | some x =>
      refine ⟨fun _ => ⟨_, rfl⟩, fun hle => ?_⟩
      rw [hnone.mpr hle] at hscaled
      cases hscaled

/-! ## What is read exactly -/

section Exact

variable {negative : Bool} {s dropped : Nat} {e : Int} {cs : List Char} {n : Number}

theorem of_map_eq_ok {r : Except Fault Number} (h : r.map (·, cs) = .ok (n, rest)) :
    r = .ok n := by
  cases r with
  | error => cases h
  | ok => cases h; rfl

theorem exists_float_of_floatOf (h : floatOf negative s e = .ok n) : ∃ x, n = .float x := by
  rw [floatOf] at h
  split at h
  · cases h; exact ⟨_, rfl⟩
  · cases h

theorem exists_float_of_exponentPart (h : exponentPart negative s e cs = .ok (n, rest)) :
    ∃ x, n = .float x := by
  rw [exponentPart] at h
  split at h
  · cases h
  · have hnumber := of_map_eq_ok h
    rw [withExponent] at hnumber
    split at hnumber
    · exact exists_float_of_floatOf hnumber
    · split at hnumber
      · cases hnumber
      · cases hnumber; exact ⟨_, rfl⟩

theorem exists_float_of_afterFraction (h : afterFraction negative s e cs = .ok (n, rest)) :
    ∃ x, n = .float x := by
  rw [afterFraction.eq_def] at h
  split at h
  · split at h
    · exact exists_float_of_exponentPart h
    · exact exists_float_of_floatOf (of_map_eq_ok h)
  · exact exists_float_of_floatOf (of_map_eq_ok h)

theorem exists_float_of_fractionPart (h : fractionPart negative s dropped cs = .ok (n, rest)) :
    ∃ x, n = .float x := by
  rw [fractionPart] at h
  split at h
  · cases h
  · exact exists_float_of_afterFraction h

theorem afterWhole_cases (h : afterWhole negative s dropped cs = .ok (n, rest)) :
    (∃ x, n = .float x) ∨ n = wholeNumber negative s := by
  rw [afterWhole.eq_def] at h
  split at h
  · split at h
    · exact .inl (exists_float_of_fractionPart h)
    · split at h
      · exact .inl (exists_float_of_exponentPart h)
      · split at h
        · cases h; exact .inr rfl
        · exact .inl (exists_float_of_floatOf (of_map_eq_ok h))
  · split at h
    · cases h; exact .inr rfl
    · exact .inl (exists_float_of_floatOf (of_map_eq_ok h))

theorem fits_of_wholeNumber (hs : s < 2 ^ 64) {value : Int}
    (h : wholeNumber negative s = .integer value) : FitsNumber value := by
  rw [fitsNumber_iff]
  rw [wholeNumber] at h
  split at h
  · cases h; omega
  · split at h
    · next hfits =>
      cases h
      rw [Bool.and_eq_true, decide_eq_true_eq, decide_eq_true_eq] at hfits
      have hmin : -9223372036854775808 ≤ -(s : Int) := hfits.2
      omega
    · cases h

theorem fits_of_magnitude {value : Int} (h : magnitude negative cs = .ok (.integer value, rest)) :
    FitsNumber value := by
  rw [magnitude.eq_def] at h
  split at h
  · cases h
  · split at h
    · split at h
      · cases h
      · rcases afterWhole_cases h with ⟨x, hx⟩ | hwhole
        · cases hx
        · exact fits_of_wholeNumber (by decide) hwhole.symm
    · split at h
      · next c tail _ _ =>
        have hdigits : ∀ d ∈ (c :: tail).takeWhile Char.isDigit, d.isDigit = true :=
          List.all_eq_true.mp List.all_takeWhile
        have habsorbed := absorbed hdigits (show 0 < 2 ^ 64 by decide)
        rcases afterWhole_cases h with ⟨x, hx⟩ | hwhole
        · cases hx
        · exact fits_of_wholeNumber habsorbed.fits hwhole.symm
      · cases h

/-- Whatever the text, a number that is kept exactly is one of 64 bits. -/
theorem fits_of_number {value : Int} (h : number cs = .ok (.integer value, rest)) :
    FitsNumber value := by
  rw [number.eq_def] at h
  split at h <;> exact fits_of_magnitude h

end Exact

end Typings.Json
