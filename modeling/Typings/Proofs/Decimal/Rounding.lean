import Mathlib.Algebra.Group.Nat.Defs
import Typings.Decimal.Scaled

/-! # How doubles are rounded

A double in full is `mantissa * 2 ^ exponent` with a mantissa of 53 binary digits (`IsFull`). Longer
significands are shifted to that length and rounded to the nearest one, to the even one of two that
are equally near (`IsNearest`), which may carry into one more digit (`Rounded`). Whole numbers of 53
to 64 binary digits become doubles that way, and so does the product of two doubles in full: it
overflows from one bound on (`isInf_mul_iff`), which lies half a place above the largest double.
-/
namespace Typings.Decimal

open Float.Model
open Float.Model.UnpackedFloat (ExtendedMantissa Accuracy Sign)

/-! ## To the nearest -/

/-- The whole number `r` is nearest to `n / 2 ^ k`, and even if another one is as near. -/
structure IsNearest (n k r : Nat) : Prop where
  low : 2 * (r * 2 ^ k) ≤ 2 * n + 2 ^ k
  high : 2 * n ≤ 2 * (r * 2 ^ k) + 2 ^ k
  tie : 2 * (r * 2 ^ k) = 2 * n + 2 ^ k ∨ 2 * n = 2 * (r * 2 ^ k) + 2 ^ k → r % 2 = 0

/-- What is known of a number after its last `k` binary digits are shifted out: which half of a
place they make up. -/
def Keeps (n k : Nat) (em : ExtendedMantissa) : Prop :=
  match em.roundBit, em.stickyBit with
  | false, false => n = em.mantissa * 2 ^ k
  | false, true => em.mantissa * 2 ^ k < n ∧ 2 * n < 2 * (em.mantissa * 2 ^ k) + 2 ^ k
  | true, false => 2 * n = 2 * (em.mantissa * 2 ^ k) + 2 ^ k
  | true, true => 2 * (em.mantissa * 2 ^ k) + 2 ^ k < 2 * n ∧ n < em.mantissa * 2 ^ k + 2 ^ k

section Shifting

variable {n k : Nat} {em : ExtendedMantissa}

theorem Keeps.shiftRightOne (h : Keeps n k em) : Keeps n (k + 1) em.shiftRightOne := by
  obtain ⟨m, round, sticky⟩ := em
  have hmantissa : m * 2 ^ k = 2 * (m / 2 * 2 ^ k) + m % 2 * 2 ^ k := by
    rw [← Nat.mul_assoc, ← Nat.add_mul, Nat.div_add_mod]
  have hplace : 2 ^ (k + 1) = 2 * 2 ^ k := by rw [Nat.pow_succ, Nat.mul_comm]
  have hnext : m / 2 * (2 * 2 ^ k) = 2 * (m / 2 * 2 ^ k) := Nat.mul_left_comm ..
  have hpos : 0 < 2 ^ k := Nat.two_pow_pos k
  -- The digit that is shifted out decides the new half, by what was left below it.
  rcases Nat.mod_two_eq_zero_or_one m with hm | hm <;>
    rw [hm] at hmantissa <;>
    cases round <;> cases sticky <;>
    simp only [Keeps, ExtendedMantissa.shiftRightOne, hm, hmantissa, hplace, hnext, Bool.or_self,
      Bool.or_false, Bool.or_true, Nat.reduceBNe] at h ⊢ <;>
    omega

theorem keeps_shiftRight (n k : Nat) :
    Keeps n k (ExtendedMantissa.ofMantissaAndAccuracy n .exact >>> k) := by
  induction k with
  | zero => exact (Nat.mul_one n).symm
  | succ k ih => exact ih.shiftRightOne

theorem Keeps.isNearest (h : Keeps n k em) : IsNearest n k em.roundedMantissa := by
  obtain ⟨m, round, sticky⟩ := em
  have hpos : 0 < 2 ^ k := Nat.two_pow_pos k
  have hup : (m + 1) * 2 ^ k = m * 2 ^ k + 2 ^ k := Nat.succ_mul m (2 ^ k)
  cases round <;> cases sticky <;>
    simp only [Keeps, ExtendedMantissa.roundedMantissa, ExtendedMantissa.accuracy,
      Accuracy.roundToNearestEven] at h ⊢
  case true.false =>
    rcases Nat.mod_two_eq_zero_or_one m with hm | hm <;> rw [hm]
    · exact ⟨by rw [Nat.add_zero]; omega, by rw [Nat.add_zero]; omega, fun _ => hm⟩
    · exact ⟨by omega, by omega, fun _ => by omega⟩
  all_goals exact ⟨by omega, by omega, by omega⟩

end Shifting

/-! ## To a mantissa in full -/

/-- A number of more than `k` binary digits loses the last `k` of them to a mantissa in full. When
that mantissa would have one more digit, all its digits but the first are zero, and the exponent
carries. -/
structure Rounded (n k mantissa carry : Nat) : Prop where
  full : 2 ^ 52 ≤ mantissa
  fits : mantissa < 2 ^ 53
  carries : carry = 0 ∨ carry = 1 ∧ mantissa = 2 ^ 52
  nearest : IsNearest n k (mantissa * 2 ^ carry)

section Rounding

variable {n k : Nat}

theorem Rounded.carry_le {m carry : Nat} (h : Rounded n k m carry) : carry ≤ 1 := by
  rcases h.carries with hzero | ⟨hone, -⟩ <;> omega

theorem IsNearest.bounds {r : Nat} (h : IsNearest n k r) (hn : n ≠ 0) (hlog : n.log2 = 52 + k) :
    2 ^ 52 ≤ r ∧ r ≤ 2 ^ 53 := by
  have hpos : 0 < 2 ^ k := Nat.two_pow_pos k
  obtain ⟨hlow, hhigh⟩ := (Nat.log2_eq_iff hn).mp hlog
  rw [Nat.pow_add] at hlow
  have hsplit : 2 ^ (52 + k + 1) = 2 ^ 53 * 2 ^ k := by rw [← Nat.pow_add]; congr 1; omega
  rw [hsplit] at hhigh
  constructor
  · refine Nat.le_of_not_lt fun hr => ?_
    have hmul : (r + 1) * 2 ^ k ≤ 2 ^ 52 * 2 ^ k := Nat.mul_le_mul_right _ hr
    rw [Nat.succ_mul] at hmul
    have := h.high
    omega
  · refine Nat.le_of_not_lt fun hr => ?_
    have hmul : (2 ^ 53 + 1) * 2 ^ k ≤ r * 2 ^ k := Nat.mul_le_mul_right _ hr
    rw [Nat.succ_mul] at hmul
    have := h.low
    omega

theorem targetExponent_eq (m : Nat) (e : Int) :
    Format.binary64.targetExponent (totalExponent m e) = max (m.log2 + e - 52) (-1074) := by
  have hbits : (Format.binary64.mantissaBits : Int) = 53 := rfl
  have hmin : Format.binary64.minExponent = -1074 := rfl
  rw [Format.targetExponent, totalExponent, hbits, hmin]
  congr 1
  omega

/-- A mantissa of at most 53 binary digits is not shifted any more. -/
theorem shiftToTargetExponent_of_lt {m : Nat} {e : Int} (hm : m < 2 ^ 53) (he : -1074 ≤ e) :
    UnpackedFloat.shiftToTargetExponent .binary64 m e .exact = (⟨m, false, false⟩, e) := by
  have hlog : m.log2 < 53 := by
    by_cases hzero : m = 0
    · rw [hzero]; decide
    · exact (Nat.log2_lt hzero).mpr hm
  have hnone : (Format.binary64.targetExponent (totalExponent m e) - e).toNat = 0 := by
    rw [targetExponent_eq]
    omega
  rw [UnpackedFloat.shiftToTargetExponent, UnpackedFloat.shiftToExponent, hnone]
  exact Prod.ext rfl (Int.add_zero e)

theorem shiftToTargetExponent_carry {e : Int} (he : -1074 ≤ e) :
    UnpackedFloat.shiftToTargetExponent .binary64 (2 ^ 53) e .exact =
      (⟨2 ^ 52, false, false⟩, e + 1) := by
  have hone : (Format.binary64.targetExponent (totalExponent (2 ^ 53) e) - e).toNat = 1 := by
    rw [targetExponent_eq, Nat.log2_two_pow]
    omega
  rw [UnpackedFloat.shiftToTargetExponent, UnpackedFloat.shiftToExponent, hone]
  rfl

/-- Between the two shifts the mantissa is rounded, and what the second one leaves is the result. -/
theorem roundWithAccuracy_eq (sign : Sign) {m : Nat} {e e₁ e₂ : Int} {em : ExtendedMantissa}
    (hfirst : UnpackedFloat.shiftToTargetExponent .binary64 n e .exact = (em, e₁))
    (hsecond : UnpackedFloat.shiftToTargetExponent .binary64 em.roundedMantissa e₁ .exact =
      (⟨m, false, false⟩, e₂)) (hm : 0 < m) :
    UnpackedFloat.roundWithAccuracy .binary64 sign n e .exact = .finite sign m e₂ hm := by
  rw [UnpackedFloat.roundWithAccuracy, hfirst]
  dsimp only
  rw [hsecond]
  exact dif_neg (Nat.ne_of_gt hm)

/-- The first shift leaves a mantissa in full, or one digit more, which the second shift takes. -/
theorem exists_rounded (sign : Sign) {e : Int} (hn : n ≠ 0) (hlog : n.log2 = 52 + k)
    (he : -1074 ≤ e + k) :
    ∃ m carry h, Rounded n k m carry ∧
      UnpackedFloat.roundWithAccuracy .binary64 sign n e .exact =
        .finite sign m (e + k + carry) h := by
  have hshift : (Format.binary64.targetExponent (totalExponent n e) - e).toNat = k := by
    rw [targetExponent_eq, hlog]
    omega
  have hfirst : UnpackedFloat.shiftToTargetExponent .binary64 n e .exact =
      (ExtendedMantissa.ofMantissaAndAccuracy n .exact >>> k, e + k) := by
    rw [UnpackedFloat.shiftToTargetExponent, UnpackedFloat.shiftToExponent, hshift]
  have hnear := (keeps_shiftRight n k).isNearest
  generalize ExtendedMantissa.ofMantissaAndAccuracy n .exact >>> k = em at hfirst hnear
  obtain ⟨hfull, hmax⟩ := hnear.bounds hn hlog
  rcases Nat.lt_or_eq_of_le hmax with hlt | hcarry
  · have hsecond : UnpackedFloat.shiftToTargetExponent .binary64 em.roundedMantissa (e + k) .exact =
        (⟨em.roundedMantissa, false, false⟩, e + k + (0 : Nat)) := by
      rw [shiftToTargetExponent_of_lt hlt he, Int.natCast_zero, Int.add_zero]
    exact ⟨em.roundedMantissa, 0, by omega, ⟨hfull, hlt, .inl rfl, by simpa using hnear⟩,
      roundWithAccuracy_eq sign hfirst hsecond _⟩
  · rw [hcarry] at hnear
    have hsecond : UnpackedFloat.shiftToTargetExponent .binary64 em.roundedMantissa (e + k) .exact =
        (⟨2 ^ 52, false, false⟩, e + k + (1 : Nat)) := by
      rw [hcarry, shiftToTargetExponent_carry he, Int.natCast_one]
    exact ⟨2 ^ 52, 1, by decide, ⟨Nat.le_refl _, by decide, .inr ⟨rfl, rfl⟩, hnear⟩,
      roundWithAccuracy_eq sign hfirst hsecond _⟩

end Rounding

/-! ## Packed and unpacked -/

section Packing

variable {m : Nat} {e : Int} {s : Sign}

theorem toNat_one_append (hfull : 2 ^ 52 ≤ m) (hfits : m < 2 ^ 53) :
    (1#1 ++ BitVec.ofNat 52 m).toNat = m := by
  rw [BitVec.toNat_append, ← Nat.shiftLeft_add_eq_or_of_lt (BitVec.isLt _), BitVec.toNat_ofNat]
  show 1 <<< 52 + m % 2 ^ 52 = m
  rw [Nat.shiftLeft_eq]
  omega

/-- Bits whose exponent is neither of the two extremes are those of a mantissa in full. -/
theorem unpack_of_exponent {b : BitVec Format.binary64.numBits}
    (hmax : UnpackedFloat.unpackExponent b ≠ -1#11)
    (hmin : UnpackedFloat.unpackExponent b ≠ 0#11) :
    ∃ s h, UnpackedFloat.unpack .binary64 b =
      .finite s (1#1 ++ UnpackedFloat.unpackMantissa b).toNat
        ((UnpackedFloat.unpackExponent b).toNat - (1023 + 52)) h :=
  ⟨_, _, (if_neg hmax).trans (if_neg hmin)⟩

theorem unpack_pack_of_le (hfull : 2 ^ 52 ≤ m) (hfits : m < 2 ^ 53) (hlow : -1074 ≤ e)
    (hhigh : e ≤ 971) (hpos : 0 < m) :
    ∃ s', (Float.Model.pack (.finite s m e hpos)).unpack = .finite s' m e hpos := by
  have hlog : m.log2 = 52 := (Nat.log2_eq_iff (Nat.ne_of_gt hpos)).mpr ⟨hfull, hfits⟩
  obtain ⟨biased, hbiased⟩ : ∃ biased : Nat, (e + 1023 + 52).toNat = biased := ⟨_, rfl⟩
  have hpack : UnpackedFloat.pack .binary64 (.finite s m e hpos) =
      UnpackedFloat.packComponents .binary64 s (BitVec.ofNat 11 biased) (BitVec.ofNat 52 m) := by
    have hroom : ¬ 2 ^ 11 ≤ (e + 1023 + 52).toNat + 1 := by omega
    have hdigits : m.log2 + 1 = 53 := by rw [hlog]
    rw [← hbiased]
    exact (if_neg hroom).trans (if_pos hdigits)
  have htoNat : (BitVec.ofNat 11 biased).toNat = biased := by
    rw [BitVec.toNat_ofNat]
    omega
  have hnotMax : BitVec.ofNat 11 biased ≠ -1#11 := by
    intro h
    have hmax : biased = 2047 := htoNat.symm.trans (congrArg BitVec.toNat h)
    omega
  have hnotZero : BitVec.ofNat 11 biased ≠ 0#11 := by
    intro h
    have hzero : biased = 0 := htoNat.symm.trans (congrArg BitVec.toNat h)
    omega
  obtain ⟨s', _, hunpack⟩ := unpack_of_exponent
    (b := UnpackedFloat.packComponents .binary64 s (.ofNat 11 biased) (.ofNat 52 m))
    (by rwa [UnpackedFloat.unpackExponent_packComponents])
    (by rwa [UnpackedFloat.unpackExponent_packComponents])
  have hexponent : (biased : Int) - (1023 + 52) = e := by omega
  refine ⟨s', ?_⟩
  rw [Float.Model.unpack, Float.Model.pack]
  dsimp only
  rw [hpack, hunpack, UnpackedFloat.finite.injEq, UnpackedFloat.unpackExponent_packComponents,
    UnpackedFloat.unpackMantissa_packComponents, htoNat]
  exact ⟨rfl, toNat_one_append hfull hfits, hexponent⟩

theorem isInf_unpack_pack (hhigh : 972 ≤ e) (hpos : 0 < m) :
    (Float.Model.pack (.finite s m e hpos)).unpack.isInf = true := by
  have hpack : UnpackedFloat.pack .binary64 (.finite s m e hpos) =
      UnpackedFloat.packedInfinity .binary64 s := by
    have hexponent : 2 ^ 11 ≤ (e + 1023 + 52).toNat + 1 := by omega
    exact if_pos hexponent
  rw [Float.Model.unpack, Float.Model.pack]
  dsimp only
  rw [hpack]
  cases s <;> rfl

end Packing

/-! ## Doubles in full -/

/-- A double that is `mantissa * 2 ^ exponent` or its negative, with a mantissa in full. -/
structure IsFull (x : Float) (mantissa : Nat) (exponent : Int) : Prop where
  full : 2 ^ 52 ≤ mantissa
  fits : mantissa < 2 ^ 53
  unpack_eq : ∃ sign h, x.toModel.unpack = .finite sign mantissa exponent h

section Whole

variable {n k : Nat}

theorem ofNat_eq (hn : 0 < n) :
    UnpackedFloat.ofNat .binary64 n = UnpackedFloat.round .binary64 .positive n 0 := by
  have hgt : compare (n : Int) 0 = .gt := Int.compare_eq_gt.mpr (Int.natCast_pos.mpr hn)
  rw [UnpackedFloat.ofNat, UnpackedFloat.ofInt, UnpackedFloat.normalize, hgt]
  rfl

theorem round_eq (hlog : n.log2 = 52 + k) :
    UnpackedFloat.round .binary64 .positive n 0 =
      UnpackedFloat.roundWithAccuracy .binary64 .positive n 0 .exact := by
  have hnone : (0 - Format.binary64.targetExponent (totalExponent n 0)).toNat = 0 := by
    rw [targetExponent_eq, hlog]
    omega
  rw [UnpackedFloat.round, UnpackedFloat.decreaseExponent, hnone]
  rfl

/-- A whole number of 53 to 64 binary digits becomes the nearest double in full. -/
theorem exists_isFull_toFloat (hn : n < 2 ^ 64) (hlog : n.log2 = 52 + k) :
    ∃ m carry, Rounded n k m carry ∧ IsFull n.toUInt64.toFloat m (k + carry : Nat) := by
  have hpos : n ≠ 0 := by
    rintro rfl
    exact absurd hlog (by rw [Nat.log2_zero]; omega)
  have hk : k ≤ 11 := by
    have := (Nat.log2_lt hpos).mpr hn
    omega
  obtain ⟨m, carry, hm, hrounded, hround⟩ := exists_rounded (e := 0) .positive hpos hlog (by omega)
  have hcarry := hrounded.carry_le
  have hexponent : (0 : Int) + k + carry = (k + carry : Nat) := by omega
  rw [hexponent] at hround
  have htoFloat : n.toUInt64.toFloat.toModel =
      Float.Model.pack (.finite .positive m (k + carry : Nat) hm) := by
    have hsize : n.toUInt64.toNat = n := UInt64.toNat_ofNat_of_lt' hn
    show Float.Model.pack (UnpackedFloat.ofNat .binary64 n.toUInt64.toNat) = _
    rw [hsize, ofNat_eq (Nat.pos_of_ne_zero hpos), round_eq hlog, hround]
  obtain ⟨s, hunpack⟩ := unpack_pack_of_le (s := .positive) (e := (k + carry : Nat))
    hrounded.full hrounded.fits (by omega) (by omega) hm
  exact ⟨m, carry, hrounded, hrounded.full, hrounded.fits, s, hm, by rw [htoFloat, hunpack]⟩

end Whole

section Product

variable {x y : Float} {m₁ m₂ : Nat} {e₁ e₂ : Int}

theorem exists_isInf_mul_iff (hx : IsFull x m₁ e₁) (hy : IsFull y m₂ e₂) (hlow : -1074 ≤ e₁ + e₂) :
    ∃ k m carry, (m₁ * m₂).log2 = 52 + k ∧ k ≤ 53 ∧ Rounded (m₁ * m₂) k m carry ∧
      ((x * y).isInf = true ↔ 972 ≤ e₁ + e₂ + k + carry) := by
  have hfull : 2 ^ 52 * 2 ^ 52 ≤ m₁ * m₂ := Nat.mul_le_mul hx.full hy.full
  have hfits : m₁ * m₂ < 2 ^ 53 * 2 ^ 53 :=
    Nat.mul_lt_mul_of_lt_of_le hx.fits (Nat.le_of_lt hy.fits) (by decide)
  have hpos : m₁ * m₂ ≠ 0 := by omega
  obtain ⟨k, hlog, hk⟩ : ∃ k, (m₁ * m₂).log2 = 52 + k ∧ k ≤ 53 := by
    have hmin := (Nat.le_log2 hpos).mpr (show 2 ^ 104 ≤ m₁ * m₂ from hfull)
    have hmax := (Nat.log2_lt hpos).mpr (show m₁ * m₂ < 2 ^ 106 from hfits)
    exact ⟨(m₁ * m₂).log2 - 52, by omega, by omega⟩
  obtain ⟨s₁, h₁, hunpack₁⟩ := hx.unpack_eq
  obtain ⟨s₂, h₂, hunpack₂⟩ := hy.unpack_eq
  obtain ⟨m, carry, hm, hrounded, hround⟩ :=
    exists_rounded (e := e₁ + e₂) (s₁ * s₂) hpos hlog (by omega)
  have hmul : (x * y).isInf =
      (Float.Model.pack (.finite (s₁ * s₂) m (e₁ + e₂ + k + carry) hm)).unpack.isInf := by
    show (Float.Model.pack (UnpackedFloat.mul .binary64 x.toModel.unpack
      y.toModel.unpack)).unpack.isInf = _
    rw [hunpack₁, hunpack₂, ← hround]
    rfl
  refine ⟨k, m, carry, hlog, hk, hrounded, ?_⟩
  rw [hmul]
  constructor
  · intro hinf
    refine Int.not_lt.mp fun hlt => ?_
    obtain ⟨s, hunpack⟩ := unpack_pack_of_le (s := s₁ * s₂) hrounded.full hrounded.fits
      (e := e₁ + e₂ + k + carry) (by omega) (by omega) hm
    rw [hunpack] at hinf
    cases hinf
  · exact fun h => isInf_unpack_pack h hm

/-- Half a place above the largest double: the least number that is rounded past it. -/
def overflowBound : Nat := (2 ^ 54 - 1) * 2 ^ 970

/-- Right below the bound, only a mantissa that carries reaches it. -/
theorem Rounded.carry_eq_one_iff {n k m carry : Nat} (h : Rounded n k m carry) :
    carry = 1 ↔ (2 ^ 54 - 1) * 2 ^ k ≤ 2 * n := by
  have hnear := h.nearest
  rcases h.carries with rfl | ⟨rfl, rfl⟩
  · refine ⟨nofun, fun hle => ?_⟩
    rw [Nat.pow_zero, Nat.mul_one] at hnear
    have hfits := h.fits
    have hhigh := hnear.high
    have hmul : (m + 1) * 2 ^ k ≤ 2 ^ 53 * 2 ^ k := Nat.mul_le_mul_right _ hfits
    rw [Nat.succ_mul] at hmul
    have hpos : 0 < 2 ^ k := Nat.two_pow_pos k
    have hlast : m = 2 ^ 53 - 1 := by
      have heq : m * 2 ^ k = (2 ^ 53 - 1) * 2 ^ k := by omega
      exact Nat.eq_of_mul_eq_mul_right hpos heq
    have heven := hnear.tie (.inr (by omega))
    rw [hlast] at heven
    exact absurd heven (by decide)
  · have hlow := hnear.low
    exact ⟨fun _ => by omega, fun _ => rfl⟩

theorem Rounded.overflows_iff {n k m carry : Nat} (h : Rounded n k m carry) (hn : n ≠ 0)
    (hlog : n.log2 = 52 + k) (e : Nat) :
    972 ≤ e + k + carry ↔ overflowBound ≤ n * 2 ^ e := by
  obtain ⟨hlow, hhigh⟩ := (Nat.log2_eq_iff hn).mp hlog
  have hcarry := h.carry_le
  -- A name for the exponent keeps the powers of two from being multiplied out.
  obtain ⟨p, hp, hbound⟩ : ∃ p, p = 970 ∧ overflowBound = (2 ^ 54 - 1) * 2 ^ p :=
    ⟨970, rfl, rfl⟩
  rw [hbound]
  rcases Nat.lt_trichotomy (e + k) (p + 1) with hless | hlast | hmore
  · have hsmall : n * 2 ^ e < (2 ^ 54 - 1) * 2 ^ p :=
      calc n * 2 ^ e < 2 ^ (52 + k + 1) * 2 ^ e :=
          Nat.mul_lt_mul_of_pos_right hhigh (Nat.two_pow_pos e)
        _ = 2 ^ (52 + k + 1 + e) := (Nat.pow_add ..).symm
        _ ≤ 2 ^ (53 + p) := Nat.pow_le_pow_right (by decide) (by omega)
        _ = 2 ^ 53 * 2 ^ p := Nat.pow_add ..
        _ ≤ (2 ^ 54 - 1) * 2 ^ p := Nat.mul_le_mul_right _ (by decide)
    exact ⟨fun _ => by omega, fun hle => absurd hle (Nat.not_le.mpr hsmall)⟩
  · have hdouble : 2 * ((2 ^ 54 - 1) * 2 ^ p) = (2 ^ 54 - 1) * 2 ^ k * 2 ^ e := by
      rw [Nat.mul_assoc, ← Nat.pow_add, Nat.add_comm k e, hlast, Nat.mul_left_comm, ← Nat.pow_succ']
    have hiff : (2 ^ 54 - 1) * 2 ^ p ≤ n * 2 ^ e ↔ (2 ^ 54 - 1) * 2 ^ k ≤ 2 * n := by
      rw [← Nat.mul_le_mul_left_iff (show 0 < 2 by decide), hdouble, ← Nat.mul_assoc]
      exact Nat.mul_le_mul_right_iff (Nat.two_pow_pos e)
    rw [hiff, ← h.carry_eq_one_iff]
    omega
  · have hlarge : (2 ^ 54 - 1) * 2 ^ p ≤ n * 2 ^ e :=
      calc (2 ^ 54 - 1) * 2 ^ p ≤ 2 ^ 54 * 2 ^ p := Nat.mul_le_mul_right _ (by decide)
        _ = 2 ^ (54 + p) := (Nat.pow_add ..).symm
        _ ≤ 2 ^ (52 + k + e) := Nat.pow_le_pow_right (by decide) (by omega)
        _ = 2 ^ (52 + k) * 2 ^ e := Nat.pow_add ..
        _ ≤ n * 2 ^ e := Nat.mul_le_mul_right _ hlow
    exact ⟨fun _ => hlarge, fun _ => by omega⟩

/-- The product of two doubles in full overflows from one bound on. -/
theorem isInf_mul_iff {e : Nat} (hx : IsFull x m₁ e₁) (hy : IsFull y m₂ e₂) (he : e₁ + e₂ = e) :
    (x * y).isInf = true ↔ overflowBound ≤ m₁ * m₂ * 2 ^ e := by
  obtain ⟨k, m, carry, hlog, -, hrounded, hiff⟩ := exists_isInf_mul_iff hx hy (by omega)
  have hpos : m₁ * m₂ ≠ 0 :=
    Nat.mul_ne_zero (by have := hx.full; omega) (by have := hy.full; omega)
  rw [hiff, ← hrounded.overflows_iff hpos hlog, he]
  omega

theorem isInf_mul_of_le (hx : IsFull x m₁ e₁) (hy : IsFull y m₂ e₂) (hlow : -1074 ≤ e₁ + e₂)
    (hhigh : e₁ + e₂ ≤ 917) : (x * y).isInf = false := by
  obtain ⟨k, m, carry, -, hk, hrounded, hiff⟩ := exists_isInf_mul_iff hx hy hlow
  have hcarry := hrounded.carry_le
  rw [← Bool.not_eq_true, hiff]
  omega

end Product

end Typings.Decimal
