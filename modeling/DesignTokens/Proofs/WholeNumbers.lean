import DesignTokens.Number.Decimal
import DesignTokens.Number.Numeral
import Mathlib.Data.Nat.Digits.Defs
import Mathlib.Tactic.NormNum

/-! # Whole numbers in double precision

Every natural number up to the fifty-third power of two is a double-precision number: it is rounded
to itself, and its canonical text is its decimal numeral. -/
namespace DesignTokens

/-- A decimal numeral spells its number. -/
theorem Numeral.decimalValue_toString (n : Nat) : decimalValue (toString n).toList = n := by
  rw [show toString n = n.repr from rfl, Nat.toList_repr]
  exact Nat.ofDigitChars_ten_toDigits

namespace Binary64

/-- The greatest number below which no natural number is rounded. -/
def exactBound : Nat := 2 ^ 53

-- The exponent is a variable, so that the power is not computed wherever it stands.
theorem unitsPerOne_eq {k : Nat} (hk : k = 1074) : unitsPerOne = 2 ^ k := by
  rw [← Nat.one_shiftLeft, hk, unitsPerOne]

private theorem unitsPerOne_pos : 0 < unitsPerOne := by
  obtain ⟨k, hk⟩ : ∃ k, k = 1074 := ⟨_, rfl⟩
  rw [unitsPerOne_eq hk]
  exact Nat.two_pow_pos k

private theorem divideHalfEven_mul (q : Nat) {denominator : Nat} (h : 0 < denominator) :
    divideHalfEven (q * denominator) denominator = q := by
  simp [divideHalfEven, Nat.mul_div_cancel _ h, h]

/-- A number is a significand of fifty-three bits that is moved to its place. -/
structure IsScaled (n significand shift : Nat) : Prop where
  units : n * unitsPerOne = significand <<< shift
  low : 2 ^ 52 ≤ significand
  high : significand < 2 ^ 53
  shift_lt : shift < 2046

theorem exists_isScaled {n : Nat} (hn : 0 < n) (h : n ≤ exactBound) :
    ∃ significand shift, IsScaled n significand shift := by
  rcases Nat.lt_or_eq_of_le h with hlt | rfl
  · have hlog : n.log2 ≤ 52 := Nat.le_of_lt_succ ((Nat.log2_lt hn.ne').2 hlt)
    refine ⟨n * 2 ^ (52 - n.log2), n.log2 + 1022, ?_, ?_, ?_, by omega⟩
    · have hk : 52 - n.log2 + (n.log2 + 1022) = 1074 := by omega
      rw [Nat.shiftLeft_eq, Nat.mul_assoc, ← Nat.pow_add, unitsPerOne_eq hk]
    · calc 2 ^ 52 = 2 ^ n.log2 * 2 ^ (52 - n.log2) := by rw [← Nat.pow_add]; congr 1; omega
        _ ≤ n * 2 ^ (52 - n.log2) := Nat.mul_le_mul_right _ (Nat.log2_self_le hn.ne')
    · calc n * 2 ^ (52 - n.log2) < 2 ^ (n.log2 + 1) * 2 ^ (52 - n.log2) :=
            Nat.mul_lt_mul_of_pos_right Nat.lt_log2_self (Nat.two_pow_pos _)
        _ = 2 ^ 53 := by rw [← Nat.pow_add]; congr 1; omega
  · obtain ⟨k, hk⟩ : ∃ k, k = 1074 := ⟨_, rfl⟩
    refine ⟨2 ^ 52, k + 1, ?_, Nat.le_refl _, by decide, by omega⟩
    rw [Nat.shiftLeft_eq, exactBound, unitsPerOne_eq hk, ← Nat.pow_add, ← Nat.pow_add]
    congr 1
    omega

namespace IsScaled
variable {n significand shift : Nat} (h : IsScaled n significand shift)
include h

theorem magnitude_ofNat : (ofNat n).magnitude = shift * 2 ^ 52 + significand := by
  obtain ⟨hunits, hlow, hhigh, hshift⟩ := h
  have hpos : significand <<< shift ≠ 0 := by
    rw [Nat.shiftLeft_eq]
    exact Nat.mul_ne_zero (by omega) (Nat.two_pow_pos _).ne'
  have hlog : (significand <<< shift).log2 = 52 + shift := by
    rw [Nat.log2_eq_iff hpos, Nat.shiftLeft_eq, Nat.add_right_comm, Nat.pow_add, Nat.pow_add]
    exact ⟨Nat.mul_le_mul_right _ hlow, Nat.mul_lt_mul_of_pos_right hhigh (Nat.two_pow_pos _)⟩
  have hexact : divideHalfEven (significand <<< shift) (1 <<< shift) = significand := by
    rw [Nat.shiftLeft_eq, Nat.one_shiftLeft]
    exact divideHalfEven_mul _ (Nat.two_pow_pos _)
  change magnitudeOfRatio n 1 = _
  rw [magnitudeOfRatio, hunits, Nat.div_one, hlog, Nat.add_sub_cancel_left, hexact,
    Nat.min_eq_right]
  · rw [Nat.shiftLeft_eq]
  · rw [infinityMagnitude, Nat.shiftLeft_eq, Nat.shiftLeft_eq]
    omega

theorem units_ofNat : (ofNat n).units = n * unitsPerOne := by
  have hmagnitude := h.magnitude_ofNat
  obtain ⟨hunits, hlow, hhigh, -⟩ := h
  have hfield : (ofNat n).exponentField = shift + 1 := by
    rw [exponentField, hmagnitude, Nat.shiftRight_eq_div_pow]
    omega
  have hfraction : (ofNat n).fraction = significand - 2 ^ 52 := by
    rw [fraction, hmagnitude, Nat.one_shiftLeft]
    omega
  rw [Binary64.units, Binary64.shift, Binary64.significand, hfield, hfraction, if_neg (by omega),
    Nat.one_shiftLeft, Nat.sub_add_cancel hlow, Nat.add_sub_cancel, hunits]

private theorem magnitude_lt_infinity : (ofNat n).magnitude < infinityMagnitude := by
  have hmagnitude := h.magnitude_ofNat
  obtain ⟨-, -, hhigh, hshift⟩ := h
  rw [hmagnitude, infinityMagnitude, Nat.shiftLeft_eq]
  omega

end IsScaled

theorem ofNat_zero : ofNat 0 = zero := by
  have hmagnitude : magnitudeOfRatio 0 1 = 0 := by
    simp [magnitudeOfRatio, divideHalfEven]
  simp [ofNat, ofRatio, zero, hmagnitude]

/-- A whole number that is not rounded is written with the digits that it has. -/
theorem numeral_ofNat {n : Nat} (h : n ≤ exactBound) : (ofNat n).numeral = toString n := by
  rcases Nat.eq_zero_or_pos n with rfl | hn
  · rw [ofNat_zero]
    rfl
  obtain ⟨significand, shift, hscaled⟩ := exists_isScaled hn h
  have hfinite := hscaled.magnitude_lt_infinity
  have hsize : (ofNat n).wholeSize? = some n := by
    rw [wholeSize?, hscaled.units_ofNat, if_pos (Nat.mul_mod_left n _),
      Nat.mul_div_cancel _ unitsPerOne_pos]
  have hlimit : n < exactLimit := Nat.lt_of_le_of_lt h (by decide)
  have hmagnitude : (ofNat n).magnitude ≠ 0 := by
    have := hscaled.low
    rw [hscaled.magnitude_ofNat]
    omega
  rw [numeral, if_neg (by simp [isNaN, Nat.le_of_lt hfinite]),
    if_neg (by simp [isInfinite, hfinite.ne]), if_neg hmagnitude, if_neg (by simp [ofNat, ofRatio]),
    sizeNumeral, hsize]
  exact if_pos hlimit

/-- A decimal numeral without an exponent is read as a whole number is. -/
theorem ofDecimal_zero {n : Nat} (h : n ≤ exactBound) : ofDecimal n 0 = ofNat n := by
  by_cases hn : n = 0
  · rw [ofDecimal, if_pos hn, hn, ofNat_zero]
  · have hlength : (Nat.toDigits 10 n).length ≤ 16 :=
      Nat.toDigits_length 10 n 16 (by decide) (Nat.lt_of_le_of_lt h (by decide))
    rw [ofDecimal, if_neg hn]
    dsimp only
    rw [if_neg (by omega), if_neg (by omega), if_pos (Int.le_refl 0)]
    simp [ofNat]

end Binary64
end DesignTokens
