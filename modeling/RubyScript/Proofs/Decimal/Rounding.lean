import Mathlib.Algebra.Group.Nat.Defs
import RubyScript.Decimal.Binary64

/-!
# Rounding to the nearest number

The pattern nearest to a fraction depends on the value of the fraction only, and the pattern
nearest to the magnitude of a finite number is its own. Reading a decimal fraction therefore
does not depend on how many zeros its digits end with, although numbers far outside the range
are answered without computing a power of ten.
-/

namespace RubyScript.Binary64

theorem one_eq : one = 2 ^ 1074 := Nat.pow_eq

theorem roundDiv_mul_right (num den : Nat) {c : Nat} (hc : 0 < c) :
    roundDiv (num * c) (den * c) = roundDiv num den := by
  unfold roundDiv
  have hr : ∀ r : Nat, 2 * (r * c) = 2 * r * c := fun r => (Nat.mul_assoc 2 r c).symm
  simp only [Nat.mul_div_mul_right _ _ hc, Nat.mul_mod_mul_right, hr, Nat.mul_lt_mul_right hc]

theorem nearestBits_mul_right (num den : Nat) {c : Nat} (hc : 0 < c) :
    nearestBits (num * c) (den * c) = nearestBits num den := by
  unfold nearestBits
  simp only [Nat.mul_div_mul_right _ _ hc, Nat.mul_right_comm den c, roundDiv_mul_right _ _ hc]

theorem roundDiv_mul_self (q : Nat) {den : Nat} (hden : 0 < den) : roundDiv (q * den) den = q := by
  unfold roundDiv
  simp [Nat.mul_div_cancel q hden, hden]

theorem nearestBits_of_large {num den k : Nat} (hk : 2099 ≤ k) (h : 2 ^ k ≤ num / den) :
    nearestBits num den = infinityBits := by
  have hne : num / den ≠ 0 := by
    have hp : 0 < 2 ^ k := Nat.pow_pos (by decide)
    omega
  have hlog : k ≤ Nat.log2 (num / den) := (Nat.le_log2 hne).2 h
  have hshift : infinityBits ≤ (Nat.log2 (num / den) - 52) * exponentUnit :=
    Nat.mul_le_mul_right exponentUnit (by omega)
  unfold nearestBits
  exact Nat.min_eq_right (Nat.le_trans hshift (Nat.le_add_right _ _))

theorem nearestBits_of_small {num den : Nat} (h : 2 * num < den) : nearestBits num den = 0 := by
  have hq : num / den = 0 := Nat.div_eq_of_lt (by omega)
  have hlog : Nat.log2 0 - 52 = 0 := by decide
  unfold nearestBits
  simp only [hq, hlog, Nat.zero_mul, Nat.zero_add]
  have hround : roundDiv num (den * Nat.pow 2 0) = 0 := by
    unfold roundDiv
    simp only [Nat.pow_eq, Nat.pow_zero, Nat.mul_one,
      Nat.mod_eq_of_lt (show num < den by omega), hq,
      if_pos h]
  rw [hround, Nat.zero_min]

/-- The pattern nearest to `digits * 10 ^ exponent`. -/
def decimalBits (digits : Nat) (exponent : Int) : Nat :=
  nearestBits (digits * 10 ^ exponent.toNat * one) (10 ^ (-exponent).toNat)

theorem decimalBits_of_large {digits : Nat} {exponent : Int} (hd : digits ≠ 0)
    (he : 310 < exponent) : decimalBits digits exponent = infinityBits := by
  have hden : (-exponent).toNat = 0 := by omega
  unfold decimalBits
  rw [hden, Nat.pow_zero]
  apply nearestBits_of_large (Nat.le_refl (1025 + 1074))
  have hten : (2 : Nat) ^ 1025 ≤ 10 ^ 311 := by decide +kernel
  have hexp : (10 : Nat) ^ 311 ≤ 10 ^ exponent.toNat :=
    Nat.pow_le_pow_right (show 10 > 0 by decide) (by omega)
  have hdigits : 10 ^ exponent.toNat ≤ digits * 10 ^ exponent.toNat :=
    Nat.le_mul_of_pos_left _ (Nat.pos_of_ne_zero hd)
  rw [Nat.div_one, Nat.pow_add, ← one_eq]
  exact Nat.mul_le_mul_right one (Nat.le_trans hten (Nat.le_trans hexp hdigits))

theorem decimalBits_of_small {digits : Nat} {exponent : Int} (hd : digits ≠ 0)
    (he : exponent < -(Nat.log2 digits + 400 : Int)) : decimalBits digits exponent = 0 := by
  have hnum : exponent.toNat = 0 := by omega
  unfold decimalBits
  rw [hnum, Nat.pow_zero, Nat.mul_one]
  apply nearestBits_of_small
  have hten : (2 : Nat) ^ (1 + 1 + 1074) ≤ 10 ^ 401 := by decide +kernel
  have hdigits : digits < 2 ^ (Nat.log2 digits + 1) := (Nat.log2_lt hd).1 (Nat.lt_succ_self _)
  have hlog : (2 : Nat) ^ Nat.log2 digits ≤ 10 ^ Nat.log2 digits :=
    Nat.pow_le_pow_left (by decide) _
  have hexp : (10 : Nat) ^ (Nat.log2 digits + 401) ≤ 10 ^ (-exponent).toNat :=
    Nat.pow_le_pow_right (by decide) (by omega)
  calc 2 * (digits * one) = digits * 2 ^ 1 * 2 ^ 1074 := by
        rw [one_eq, Nat.mul_left_comm, Nat.mul_assoc, Nat.pow_one]
    _ < 2 ^ (Nat.log2 digits + 1) * 2 ^ 1 * 2 ^ 1074 :=
        Nat.mul_lt_mul_of_pos_right (Nat.mul_lt_mul_of_pos_right hdigits (by decide))
          (Nat.pow_pos (by decide))
    _ = 2 ^ Nat.log2 digits * 2 ^ (1 + 1 + 1074) := by
        rw [← Nat.pow_add, ← Nat.pow_add, ← Nat.pow_add]
    _ ≤ 10 ^ Nat.log2 digits * 10 ^ 401 := Nat.mul_le_mul hlog hten
    _ = 10 ^ (Nat.log2 digits + 401) := (Nat.pow_add 10 _ 401).symm
    _ ≤ 10 ^ (-exponent).toNat := hexp

/-- The two early answers agree with rounding. -/
theorem ofDecimal_eq (negative : Bool) {digits : Nat} (exponent : Int) (hd : digits ≠ 0) :
    ofDecimal negative digits exponent =
      ofMagnitudeBits negative (decimalBits digits exponent) := by
  unfold ofDecimal
  rw [if_neg hd]
  by_cases hlarge : 310 < exponent
  · rw [if_pos hlarge, decimalBits_of_large hd hlarge]
    rfl
  · rw [if_neg hlarge]
    by_cases hsmall : exponent < -(Nat.log2 digits + 400 : Int)
    · rw [if_pos hsmall, decimalBits_of_small hd hsmall]
      rfl
    · rw [if_neg hsmall]
      unfold ofFraction decimalBits
      by_cases hsign : 0 ≤ exponent
      · rw [if_pos hsign, show (-exponent).toNat = 0 by omega]
        rfl
      · rw [if_neg hsign, show exponent.toNat = 0 by omega, Nat.pow_zero, Nat.mul_one]
        rfl

theorem decimalBits_mul_pow (digits k : Nat) (exponent : Int) :
    decimalBits (digits * 10 ^ k) exponent = decimalBits digits (exponent + k) := by
  unfold decimalBits
  generalize one = unit
  -- Both fractions are reduced by the power of ten that numerator and denominator share.
  obtain ⟨shared, hs⟩ : ∃ shared, shared = min (-exponent).toNat k := ⟨_, rfl⟩
  have hnum : digits * 10 ^ k * 10 ^ exponent.toNat * unit =
      digits * 10 ^ (exponent + k).toNat * unit * 10 ^ shared := by
    have he : k + exponent.toNat = (exponent + k).toNat + shared := by omega
    rw [Nat.mul_assoc digits, ← Nat.pow_add, he, Nat.pow_add, ← Nat.mul_assoc,
      Nat.mul_right_comm]
  have hden : (10 : Nat) ^ (-exponent).toNat = 10 ^ (-(exponent + k)).toNat * 10 ^ shared := by
    have he : (-exponent).toNat = (-(exponent + k)).toNat + shared := by omega
    rw [he, Nat.pow_add]
  rw [hnum, hden]
  exact nearestBits_mul_right _ _ (Nat.pow_pos (by decide))

theorem ofDecimal_mul_pow (negative : Bool) {digits : Nat} (k : Nat) (exponent : Int)
    (hd : digits ≠ 0) :
    ofDecimal negative (digits * 10 ^ k) exponent = ofDecimal negative digits (exponent + k) := by
  have hp : digits * 10 ^ k ≠ 0 := Nat.mul_ne_zero hd (Nat.ne_of_gt (Nat.pow_pos (by decide)))
  rw [ofDecimal_eq negative exponent hp, ofDecimal_eq negative _ hd, decimalBits_mul_pow]

theorem ofMagnitudeBits_magnitudeBits (x : Binary64) :
    ofMagnitudeBits x.isNegative x.magnitudeBits = x := by
  have hlt : x.bits.toNat < 2 * signUnit := x.bits.toNat_lt
  have hbits : (if x.isNegative then signUnit + x.magnitudeBits else x.magnitudeBits) =
      x.bits.toNat := by
    unfold isNegative magnitudeBits
    by_cases hs : signUnit ≤ x.bits.toNat
    · simp only [hs, decide_true, if_true]
      rw [Nat.mod_eq_sub_mod hs, Nat.mod_eq_of_lt (by omega)]
      omega
    · simp only [hs, decide_false, Bool.false_eq_true, if_false]
      exact Nat.mod_eq_of_lt (by omega)
  unfold ofMagnitudeBits
  rw [hbits, UInt64.ofNat_toNat]

theorem nearestBits_of_significand {significand shift : Nat}
    (hlow : exponentUnit ≤ significand ∨ shift = 0) (hhigh : significand < 2 * exponentUnit) :
    nearestBits (significand * 2 ^ shift) 1 =
      min (shift * exponentUnit + significand) infinityBits := by
  have hlog : Nat.log2 (significand * 2 ^ shift) - 52 = shift := by
    rcases hlow with hlow | rfl
    · have hunit : exponentUnit = 2 ^ 52 := rfl
      have hp : 0 < 2 ^ shift := Nat.pow_pos (by decide)
      have hne : significand * 2 ^ shift ≠ 0 := Nat.mul_ne_zero (by omega) (by omega)
      have hl : Nat.log2 (significand * 2 ^ shift) = 52 + shift := by
        rw [Nat.log2_eq_iff hne, Nat.pow_succ, Nat.pow_add]
        constructor
        · exact Nat.mul_le_mul_right _ (by omega)
        · rw [Nat.mul_right_comm]
          exact Nat.mul_lt_mul_of_pos_right (by omega) hp
      omega
    · have hl : Nat.log2 significand < 53 := by
        rcases Nat.eq_zero_or_pos significand with rfl | hpos
        · decide
        · exact (Nat.log2_lt (by omega)).2 hhigh
      rw [Nat.pow_zero, Nat.mul_one]
      omega
  unfold nearestBits
  simp only [Nat.div_one, hlog, Nat.one_mul]
  rw [Nat.pow_eq, roundDiv_mul_self _ (Nat.pow_pos (by decide))]

theorem nearestBits_magnitude {x : Binary64} (hx : x.isFinite = true) :
    nearestBits x.magnitude 1 = x.magnitudeBits := by
  have hfinite : x.magnitudeBits < infinityBits := of_decide_eq_true hx
  have hfraction : x.magnitudeBits % exponentUnit < exponentUnit := Nat.mod_lt _ (by decide)
  have hparts := Nat.div_add_mod' x.magnitudeBits exponentUnit
  unfold magnitude
  by_cases he : x.magnitudeBits / exponentUnit = 0
  · have h : nearestBits (x.magnitudeBits % exponentUnit * 2 ^ 0) 1 = _ :=
      nearestBits_of_significand (.inr rfl) (by omega)
    rw [Nat.pow_zero, Nat.mul_one] at h
    rw [if_pos he, h]
    simp only [he, Nat.zero_mul, Nat.zero_add] at hparts ⊢
    omega
  · have hshift : (x.magnitudeBits / exponentUnit - 1) * exponentUnit + exponentUnit =
        x.magnitudeBits / exponentUnit * exponentUnit := by
      rw [← Nat.succ_mul, Nat.succ_eq_add_one, Nat.sub_add_cancel (Nat.pos_of_ne_zero he)]
    rw [if_neg he, Nat.pow_eq, nearestBits_of_significand (.inl (Nat.le_add_right _ _)) (by omega)]
    omega

theorem magnitude_ne_zero {x : Binary64} (hx : x.isZero = false) : x.magnitude ≠ 0 := by
  have hbits : x.magnitudeBits ≠ 0 := by simpa [isZero] using hx
  have hparts := Nat.div_add_mod' x.magnitudeBits exponentUnit
  unfold magnitude
  by_cases he : x.magnitudeBits / exponentUnit = 0
  · rw [if_pos he]
    rw [he] at hparts
    omega
  · have hunit : 0 < exponentUnit := by decide
    rw [if_neg he]
    exact Nat.mul_ne_zero (by omega) (Nat.ne_of_gt (Nat.pow_pos (by decide)))

/-- All digits of a finite number read back as the number. -/
theorem ofDecimal_exact {x : Binary64} (hx : x.isFinite = true) (hz : x.isZero = false) :
    ofDecimal x.isNegative (x.magnitude * Nat.pow 5 1074) (-1074) = x := by
  have hne : x.magnitude * Nat.pow 5 1074 ≠ 0 :=
    Nat.mul_ne_zero (magnitude_ne_zero hz) (Nat.ne_of_gt (Nat.pow_pos (by decide)))
  have hbits : decimalBits (x.magnitude * Nat.pow 5 1074) (-1074) = x.magnitudeBits := by
    have hten : Nat.pow 5 1074 * one = 10 ^ 1074 := by
      rw [one_eq, Nat.pow_eq, ← Nat.mul_pow]
    unfold decimalBits
    change nearestBits (x.magnitude * Nat.pow 5 1074 * 10 ^ 0 * one) (10 ^ 1074) = _
    rw [Nat.pow_zero, Nat.mul_one, Nat.mul_assoc, hten, ← nearestBits_magnitude hx]
    have h := nearestBits_mul_right x.magnitude 1 (c := 10 ^ 1074) (Nat.pow_pos (by decide))
    rw [Nat.one_mul] at h
    exact h
  rw [ofDecimal_eq _ _ hne, hbits, ofMagnitudeBits_magnitudeBits]

end RubyScript.Binary64
