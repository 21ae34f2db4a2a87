import Typings.Proofs.Decimal.Rounding

/-! # Which decimals overflow

A significand with digits left over is rounded to a double and multiplied by the double of a power
of ten. Powers up to `10 ^ 288` leave room for every significand of 64 bits, and from `10 ^ 290` on
there is none for a significand that fills them. In between, `10 ^ 289` decides: as both factors
and the product are rounded, the bound lies a little below the largest double.
-/
namespace Typings.Decimal

open Float.Model
open Float.Model.UnpackedFloat (Sign)

/-! ## Powers of ten -/

theorem log2_scaled {n : Nat} (hn : n ≠ 0) : ((1 <<< 53) * n).log2 = 52 + (n.log2 + 1) := by
  obtain ⟨hlow, hhigh⟩ := (Nat.log2_eq_iff hn).mp rfl
  refine (Nat.log2_eq_iff (Nat.mul_ne_zero (by decide) hn)).mpr ⟨?_, ?_⟩
  · rw [show 52 + (n.log2 + 1) = 53 + n.log2 by omega, Nat.pow_add]
    exact Nat.mul_le_mul_left (2 ^ 53) hlow
  · rw [show 52 + (n.log2 + 1) + 1 = 53 + (n.log2 + 1) by omega, Nat.pow_add]
    exact Nat.mul_lt_mul_of_pos_left hhigh (by decide)

theorem log2_power_lt {n max digits : Nat} (hn : n ≤ max) (h : 10 ^ max < 2 ^ digits) :
    (10 ^ n).log2 < digits :=
  (Nat.log2_lt (Nat.ne_of_gt (Nat.pow_pos (by decide)))).mpr
    (Nat.lt_of_le_of_lt (Nat.pow_le_pow_right (by decide) hn) h)

theorem le_log2_power {n min digits : Nat} (hn : min ≤ n) (h : 2 ^ digits ≤ 10 ^ min) :
    digits ≤ (10 ^ n).log2 :=
  (Nat.le_log2 (Nat.ne_of_gt (Nat.pow_pos (by decide)))).mpr
    (Nat.le_trans h (Nat.pow_le_pow_right (by decide) hn))

/-- The largest power is too far below the next power of two to be rounded to it. -/
theorem far_below {n max digits top : Nat} (hn : n ≤ max) (hdigits : top ≤ digits)
    (h : 2 * ((1 <<< 53) * 10 ^ max) < (2 ^ 54 - 1) * 2 ^ top) :
    2 * ((1 <<< 53) * 10 ^ n) < (2 ^ 54 - 1) * 2 ^ digits :=
  calc 2 * ((1 <<< 53) * 10 ^ n) ≤ 2 * ((1 <<< 53) * 10 ^ max) :=
      Nat.mul_le_mul_left _ (Nat.mul_le_mul_left _ (Nat.pow_le_pow_right (by decide) hn))
    _ < (2 ^ 54 - 1) * 2 ^ top := h
    _ ≤ (2 ^ 54 - 1) * 2 ^ digits :=
      Nat.mul_le_mul_left _ (Nat.pow_le_pow_right (by decide) hdigits)

/-- Past the powers that are exact, a power of ten is rounded as it is, to a mantissa in full. -/
theorem exists_isFull_power {n : Nat} (hexact : 22 < n) (hmax : n ≤ maxPower) :
    ∃ m e, IsFull (power n) m e ∧ ((10 ^ n).log2 : Int) - 52 ≤ e ∧ e ≤ (10 ^ n).log2 - 51 := by
  have hpos : 0 < 10 ^ n := Nat.pow_pos (by decide)
  have hscaled : (1 <<< 53) * 10 ^ n ≠ 0 := Nat.mul_ne_zero (by decide) (Nat.ne_of_gt hpos)
  have hlow : (10 ^ n).log2 < 1024 := log2_power_lt hmax (by decide +kernel)
  obtain ⟨m, carry, hm, hrounded, hround⟩ := exists_rounded (e := -53 + 0)
    (.positive * .positive) hscaled (log2_scaled (Nat.ne_of_gt hpos)) (by omega)
  have hmodel : Float.Model.UnpackedFloat.ofScientific .binary64 1 n =
      .finite (.positive * .positive) m (-53 + 0 + ((10 ^ n).log2 + 1 : Nat) + carry) hm := by
    have hn : n ≤ 308 := hmax
    rw [← hround, UnpackedFloat.ofScientific, dif_neg (by decide), if_neg, if_neg, if_pos]
    · rfl
    · exact Int.natCast_nonneg n
    · show ¬ (n : Int) < -(2 ^ 11 + (Nat.log2 1 : Nat))
      omega
    · show ¬ (n : Int) > 2 ^ 11
      omega
  have hpower : (power n).toModel = Float.Model.pack (.finite (.positive * .positive) m
      (-53 + 0 + ((10 ^ n).log2 + 1 : Nat) + carry) hm) := by
    rw [← hmodel, power, Float.ofScientific, dif_neg (by omega)]
    rfl
  have hcarry := hrounded.carry_le
  have hfits : (10 ^ n).log2 + carry < 1024 := by
    refine Nat.lt_of_not_le fun hle => ?_
    have hlong := hrounded.carry_eq_one_iff.mp (by omega)
    have hlast : 1024 ≤ (10 ^ n).log2 + 1 := by omega
    exact Nat.not_le.mpr (far_below hmax hlast (by decide +kernel)) hlong
  obtain ⟨s, hunpack⟩ := unpack_pack_of_le (s := .positive * .positive) hrounded.full
    hrounded.fits (e := -53 + 0 + ((10 ^ n).log2 + 1 : Nat) + carry) (by omega) (by omega) hm
  exact ⟨m, _, ⟨hrounded.full, hrounded.fits, s, hm, by rw [hpower, hunpack]⟩, by omega, by omega⟩

/-- The mantissa and the exponent of a finite double other than zero. -/
def parts (x : Float) : Nat × Int :=
  match x.toModel.unpack with
  | .finite _ mantissa exponent _ => (mantissa, exponent)
  | _ => (0, 0)

theorem isFull_of_parts {x : Float} {m : Nat} {e : Int} (h : parts x = (m, e))
    (hfull : 2 ^ 52 ≤ m) (hfits : m < 2 ^ 53) : IsFull x m e := by
  refine ⟨hfull, hfits, ?_⟩
  unfold parts at h
  cases hx : x.toModel.unpack with
  | finite s _ _ hpos =>
    rw [hx] at h
    cases h
    exact ⟨s, hpos, rfl⟩
  | infinity | notANumber | zero =>
    rw [hx] at h
    cases h
    exact absurd hfull (by decide)

theorem parts_exact : ∀ n < 23, 2 ^ 52 ≤ (parts (power n)).1 ∧ (parts (power n)).1 < 2 ^ 53 ∧
    -52 ≤ (parts (power n)).2 ∧ (parts (power n)).2 ≤ 905 := by
  decide +kernel

/-- The powers up to `10 ^ 288` leave room for any factor of 64 bits. -/
theorem exists_isFull_of_le {n : Nat} (hn : n ≤ 288) :
    ∃ m e, IsFull (power n) m e ∧ -52 ≤ e ∧ e ≤ 905 := by
  by_cases hexact : 22 < n
  · have hmax : n ≤ maxPower := Nat.le_trans hn (by decide)
    obtain ⟨m, e, hfull, hlow, hhigh⟩ := exists_isFull_power hexact hmax
    have hlog : (10 ^ n).log2 < 957 := log2_power_lt hn (by decide +kernel)
    exact ⟨m, e, hfull, by omega, by omega⟩
  · obtain ⟨hfull, hfits, hlow, hhigh⟩ := parts_exact n (by omega)
    exact ⟨_, _, isFull_of_parts rfl hfull hfits, hlow, hhigh⟩

theorem isFull_power_289 : IsFull (power 289) 4621297602213964 908 :=
  isFull_of_parts (by decide +kernel) (by decide) (by decide)

theorem isFull_power_290 : IsFull (power 290) 5776622002767455 911 :=
  isFull_of_parts (by decide +kernel) (by decide) (by decide)

/-! ## Significands that fill 64 bits -/

/-- The least significand that has no room for one more digit in 64 bits. -/
def leastFilled : Nat := 1844674407370955161

/-- The least significand that overflows when `10 ^ 289` is multiplied to it. -/
def leastOverflowing : Nat := 17976931348623156225

variable {s n : Nat}

theorem exists_isFull_of_filled (hfilled : leastFilled ≤ s) (hmax : s < 2 ^ 64) :
    ∃ k m carry, 8 ≤ k ∧ k ≤ 11 ∧ s.log2 = 52 + k ∧ Rounded s k m carry ∧
      IsFull s.toUInt64.toFloat m (k + carry : Nat) := by
  have hlarge : 1844674407370955161 ≤ s := hfilled
  have hpos : s ≠ 0 := by omega
  have hmin : 60 ≤ s.log2 := (Nat.le_log2 hpos).mpr (by omega)
  have htop : s.log2 < 64 := (Nat.log2_lt hpos).mpr hmax
  have hlog : s.log2 = 52 + (s.log2 - 52) := by omega
  obtain ⟨m, carry, hrounded, hfull⟩ := exists_isFull_toFloat hmax hlog
  exact ⟨_, m, carry, by omega, by omega, hlog, hrounded, hfull⟩

theorem isInf_low (hfilled : leastFilled ≤ s) (hmax : s < 2 ^ 64) (hn : n ≤ 288) :
    (s.toUInt64.toFloat * power n).isInf = false := by
  obtain ⟨k, m, carry, -, hk, -, hrounded, hfull⟩ := exists_isFull_of_filled hfilled hmax
  obtain ⟨m₂, e₂, hpower, hlow, hhigh⟩ := exists_isFull_of_le hn
  have hcarry := hrounded.carry_le
  exact isInf_mul_of_le hfull hpower (by omega) (by omega)

/-- The significand is rounded first, and what it is rounded to decides about the product. -/
theorem exists_isInf_iff (hfilled : leastFilled ≤ s) (hmax : s < 2 ^ 64) {y : Float} {m₂ : Nat}
    {e₂ : Int} (hy : IsFull y m₂ e₂) {p : Nat} (he : e₂ = p) :
    ∃ k r, 8 ≤ k ∧ k ≤ 11 ∧ s < 2 ^ (53 + k) ∧ IsNearest s k r ∧ 2 ^ 52 ≤ r ∧ r ≤ 2 ^ 53 ∧
      ((s.toUInt64.toFloat * y).isInf = true ↔ overflowBound ≤ r * 2 ^ k * m₂ * 2 ^ p) := by
  obtain ⟨k, m, carry, hmin, hk, hlog, hrounded, hfull⟩ := exists_isFull_of_filled hfilled hmax
  have hpos : s ≠ 0 := Nat.ne_of_gt (Nat.lt_of_lt_of_le (by decide) hfilled)
  obtain ⟨hleast, hmost⟩ := hrounded.nearest.bounds hpos hlog
  have hdigits : s < 2 ^ (53 + k) := (Nat.log2_lt hpos).mp (by omega)
  have hproduct : m * m₂ * 2 ^ (k + carry + p) = m * 2 ^ carry * 2 ^ k * m₂ * 2 ^ p := by
    rw [Nat.pow_add, Nat.pow_add]
    ac_rfl
  refine ⟨k, m * 2 ^ carry, hmin, hk, hdigits, hrounded.nearest, hleast, hmost, ?_⟩
  rw [isInf_mul_iff hfull hy (e := k + carry + p) (by omega), hproduct]

theorem isInf_289 (hfilled : leastFilled ≤ s) (hmax : s < 2 ^ 64) :
    (s.toUInt64.toFloat * power 289).isInf = true ↔ leastOverflowing ≤ s := by
  obtain ⟨p, hp, hbound⟩ : ∃ p, p = 908 ∧ overflowBound = (2 ^ 54 - 1) * 2 ^ 62 * 2 ^ p :=
    ⟨908, rfl, by decide +kernel⟩
  obtain ⟨k, r, hmin, hk, hdigits, ⟨hlow, hhigh, htie⟩, hleast, hmost, hiff⟩ :=
    exists_isInf_iff hfilled hmax isFull_power_289 (p := p) (by omega)
  rw [hiff, hbound, Nat.mul_le_mul_right_iff (Nat.two_pow_pos p), leastOverflowing]
  obtain rfl | rfl | rfl | rfl : k = 8 ∨ k = 9 ∨ k = 10 ∨ k = 11 := by omega
  all_goals omega

theorem isInf_290 (hfilled : leastFilled ≤ s) (hmax : s < 2 ^ 64) :
    (s.toUInt64.toFloat * power 290).isInf = true := by
  obtain ⟨p, hp, hbound⟩ : ∃ p, p = 911 ∧ overflowBound = (2 ^ 54 - 1) * 2 ^ 59 * 2 ^ p :=
    ⟨911, rfl, by decide +kernel⟩
  obtain ⟨k, r, hmin, hk, -, ⟨hlow, hhigh, -⟩, hleast, -, hiff⟩ :=
    exists_isInf_iff hfilled hmax isFull_power_290 (p := p) (by omega)
  rw [hiff, hbound]
  refine Nat.mul_le_mul_right _ ?_
  rw [leastFilled] at hfilled
  obtain rfl | rfl | rfl | rfl : k = 8 ∨ k = 9 ∨ k = 10 ∨ k = 11 := by omega
  all_goals omega

theorem isInf_above (hfilled : leastFilled ≤ s) (hmax : s < 2 ^ 64) (hn : 290 < n)
    (hpower : n ≤ maxPower) : (s.toUInt64.toFloat * power n).isInf = true := by
  obtain ⟨m₂, e₂, hfull₂, hexponent, -⟩ := exists_isFull_power (by omega) hpower
  have hlog : 966 ≤ (10 ^ n).log2 := le_log2_power hn (by decide +kernel)
  obtain ⟨p, he⟩ := Int.eq_ofNat_of_zero_le (show 0 ≤ e₂ by omega)
  obtain ⟨k, r, hmin, -, -, -, hleast, -, hiff⟩ := exists_isInf_iff hfilled hmax hfull₂ he
  obtain ⟨q, hq, hbound⟩ : ∃ q, q = 970 ∧ overflowBound ≤ 2 ^ 54 * 2 ^ q :=
    ⟨970, rfl, by decide +kernel⟩
  refine hiff.mpr ?_
  calc overflowBound ≤ 2 ^ 54 * 2 ^ q := hbound
    _ ≤ 2 ^ 52 * 2 ^ k * 2 ^ 52 * 2 ^ p := by
      rw [← Nat.pow_add, ← Nat.pow_add, ← Nat.pow_add, ← Nat.pow_add]
      exact Nat.pow_le_pow_right (by decide) (by omega)
    _ ≤ r * 2 ^ k * m₂ * 2 ^ p :=
      Nat.mul_le_mul_right _ (Nat.mul_le_mul (Nat.mul_le_mul_right _ hleast) hfull₂.full)

theorem scaled?_eq_none_iff_isInf (hs : s ≠ 0) : scaled? s n = none ↔
    (n ≤ maxPower → (s.toUInt64.toFloat * power n).isInf = true) := by
  rw [scaled?]
  dsimp only
  rw [if_neg (Int.not_lt.mpr (Int.natCast_nonneg n)), Int.toNat_natCast, if_neg hs]
  split
  · next hn =>
    cases (s.toUInt64.toFloat * power n).isInf with
    | true => exact ⟨fun _ _ => rfl, fun _ => rfl⟩
    | false => exact ⟨nofun, fun h => absurd (h hn) Bool.false_ne_true⟩
  · next hn => exact ⟨fun _ hle => absurd hle hn, fun _ => rfl⟩

/-- A significand that fills 64 bits overflows with more than 289 digits behind it, and with 289
digits from one significand on. -/
theorem scaled?_eq_none_iff (hfilled : leastFilled ≤ s) (hmax : s < 2 ^ 64) :
    scaled? s n = none ↔ 289 < n ∨ n = 289 ∧ leastOverflowing ≤ s := by
  have hs : s ≠ 0 := Nat.ne_of_gt (Nat.lt_of_lt_of_le (by decide) hfilled)
  rw [scaled?_eq_none_iff_isInf hs]
  rcases Nat.lt_trichotomy n 289 with hless | rfl | hmore
  · have hpower : n ≤ maxPower := Nat.le_trans (Nat.le_of_lt hless) (by decide)
    rw [isInf_low hfilled hmax (by omega)]
    exact ⟨fun h => absurd (h hpower) Bool.false_ne_true, fun h => by omega⟩
  · rw [isInf_289 hfilled hmax]
    exact ⟨fun h => .inr ⟨rfl, h (by decide)⟩, fun h _ => h.elim (by omega) And.right⟩
  · refine ⟨fun _ => .inl hmore, fun _ hpower => ?_⟩
    rcases Nat.lt_or_eq_of_le (show 290 ≤ n from hmore) with habove | rfl
    · exact isInf_above hfilled hmax habove hpower
    · exact isInf_290 hfilled hmax

/-- The least whole number of more than 64 bits that has no double. -/
def leastRefused : Nat := leastOverflowing * 10 ^ 289

/-- The largest double. -/
def largestDouble : Nat := (2 ^ 53 - 1) * 2 ^ 971

/-- No double has more bits set in front of the mark of infinity. -/
example : parts (Float.ofBits 0x7FEFFFFFFFFFFFFF) = (2 ^ 53 - 1, 971) := by decide +kernel

/-- The bound lies in the last place of the largest double. -/
theorem leastRefused_bounds :
    largestDouble - 2 ^ 971 < leastRefused ∧ leastRefused ≤ largestDouble := by
  decide +kernel

end Typings.Decimal
