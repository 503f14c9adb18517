/-
Numerals beyond all doubles. A numeral whose length alone shows that it is far beyond them is read as an infinity, without
the power of ten being formed, and that is what its digits round to (`Decimal.toFloat_eq`): the shortcut changes no number.

A magnitude `m · 2 ^ e` is rounded by shifting `m` to the right, which makes the exponent larger, until it has no more than 53
bits. So it is enough to look at the exponent: from `2 ^ 1024` on it is too large for a double.
-/
import Lox.Number.Decimal
import Mathlib.Algebra.Group.Nat.Defs

namespace Lox.Number

open Float.Model Float.Model.UnpackedFloat

/-! ## Shifting and rounding -/

theorem mantissa_shiftRight (em : ExtendedMantissa) (k : Nat) : (em >>> k).mantissa = em.mantissa / 2 ^ k := by
  induction k generalizing em with
  | zero => exact (Nat.div_one _).symm
  | succ k ih =>
    show (em >>> k).mantissa / 2 = _
    rw [ih, Nat.div_div_eq_div_mul, Nat.pow_succ]

theorem mantissa_ofMantissaAndAccuracy (m : Nat) (a : Accuracy) :
    (ExtendedMantissa.ofMantissaAndAccuracy m a).mantissa = m := by
  cases a with
  | exact => rfl
  | inexact o => cases o <;> rfl

/-- Rounding takes nothing off what is in front of the point. -/
theorem mantissa_le_roundedMantissa (em : ExtendedMantissa) : em.mantissa ≤ em.roundedMantissa := by
  obtain ⟨m, round, sticky⟩ := em
  cases round <;> cases sticky
  · exact Nat.le_refl m
  · exact Nat.le_refl m
  · exact Nat.le_add_right m _
  · exact Nat.le_add_right m 1

/-- The exponent with which a magnitude has 53 bits, or that of the smallest double. -/
theorem targetExponent_totalExponent (m : Nat) (e : Int) :
    Format.binary64.targetExponent (totalExponent m e) = max (m.log2 + 1 + e - 53) (-1074) := rfl

/-- A shift does not make the exponent smaller, and leaves 53 bits in front of the point. -/
theorem exponent_shiftToTargetExponent (m : Nat) (e : Int) (a : Accuracy) :
    e ≤ (shiftToTargetExponent .binary64 m e a).2 ∧
      m.log2 + e - 52 ≤ (shiftToTargetExponent .binary64 m e a).2 := by
  simp only [shiftToTargetExponent, shiftToExponent, targetExponent_totalExponent]
  omega

/-- Something is left of a magnitude that is not below all doubles. -/
theorem mantissa_shiftToTargetExponent_pos {m : Nat} (e : Int) (a : Accuracy) (pos : 0 < m) (h : -1074 ≤ m.log2 + e) :
    0 < (shiftToTargetExponent .binary64 m e a).1.mantissa := by
  simp only [shiftToTargetExponent, shiftToExponent, targetExponent_totalExponent, mantissa_shiftRight,
    mantissa_ofMantissaAndAccuracy]
  have short : (max (m.log2 + 1 + e - 53) (-1074) - e).toNat ≤ m.log2 := by omega
  refine Nat.div_pos ?_ (Nat.two_pow_pos _)
  exact Nat.le_trans (Nat.pow_le_pow_right Nat.zero_lt_two short) (Nat.log2_self_le (Nat.ne_of_gt pos))

/-- An exponent that takes more than the eleven bits for it gives an infinity. -/
theorem pack_finite {m : Nat} {e : Int} (pos : 0 < m) (large : 972 ≤ e) :
    Float.Model.pack (.finite .positive m e pos) = Float.Model.pack (.infinity .positive) := by
  have full : 2 ^ Format.binary64.exponentBits ≤
      (e + Format.binary64.exponentBias + Format.binary64.mantissaBitsWithoutImplicit).toNat + 1 := by
    show 2048 ≤ (e + (1023 : Nat) + (52 : Nat)).toNat + 1
    omega
  have packed : UnpackedFloat.pack .binary64 (.finite .positive m e pos) =
      UnpackedFloat.pack .binary64 (.infinity .positive) := if_pos full
  unfold Float.Model.pack
  congr 2

/-- A magnitude of at least `2 ^ 1024` is rounded to an infinity. -/
theorem pack_roundWithAccuracy {m : Nat} {e : Int} (a : Accuracy) (pos : 0 < m) (large : 1024 ≤ m.log2 + e) :
    Float.Model.pack (roundWithAccuracy .binary64 .positive m e a) = Float.Model.pack (.infinity .positive) := by
  have first := mantissa_shiftToTargetExponent_pos e a pos (by omega)
  obtain ⟨-, exponent⟩ := exponent_shiftToTargetExponent m e a
  obtain ⟨em, e₁, shifted⟩ : ∃ em e₁, shiftToTargetExponent .binary64 m e a = (em, e₁) := ⟨_, _, rfl⟩
  rw [shifted] at first exponent
  have exponent : m.log2 + e - 52 ≤ e₁ := exponent
  -- rounding can carry over into one more bit, so that there is a second shift
  have rounded : 0 < em.roundedMantissa := Nat.lt_of_lt_of_le first (mantissa_le_roundedMantissa em)
  have left := mantissa_shiftToTargetExponent_pos e₁ .exact rounded (by omega)
  have later := (exponent_shiftToTargetExponent em.roundedMantissa e₁ .exact).1
  unfold roundWithAccuracy
  rw [shifted]
  dsimp only
  rw [dif_neg (Nat.ne_of_gt left)]
  exact pack_finite left (by omega)

/-! ## Products and quotients -/

section

variable {m n k limit : Nat} (far : 1024 ≤ limit)
include far

theorem pack_mul (hm : 0 < m <<< k) (hn : 0 < n) (large : 2 ^ limit ≤ m * n) :
    Float.Model.pack (UnpackedFloat.mul .binary64 (.finite .positive (m <<< k) (-k) hm) (.finite .positive n 0 hn)) =
      Float.Model.pack (.infinity .positive) := by
  have value : 2 ^ (limit + k) ≤ (m <<< k) * n := by
    rw [Nat.shiftLeft_eq, Nat.mul_right_comm, Nat.pow_add]
    exact Nat.mul_le_mul_right _ large
  have pos : 0 < (m <<< k) * n := Nat.mul_pos hm hn
  have log := (Nat.le_log2 (Nat.ne_of_gt pos)).2 value
  exact pack_roundWithAccuracy .exact pos (by omega)

theorem pack_div (hm : 0 < m) (hn : 0 < n) (large : 2 ^ limit * n ≤ m) :
    Float.Model.pack (UnpackedFloat.div .binary64 (.finite .positive m 0 hm) (.finite .positive n 0 hn)) =
      Float.Model.pack (.infinity .positive) := by
  obtain ⟨k, a, core⟩ : ∃ (k : Nat) (a : Accuracy), divCore .binary64 m 0 n 0 = ((m <<< k) / n, (-k : Int), a) := by
    refine ⟨_, _, Prod.ext rfl (Prod.ext ?_ rfl)⟩
    dsimp only [divCore]
    omega
  have value : 2 ^ (limit + k) ≤ (m <<< k) / n := by
    rw [Nat.le_div_iff_mul_le hn, Nat.shiftLeft_eq, Nat.pow_add, Nat.mul_right_comm]
    exact Nat.mul_le_mul_right _ large
  have pos : 0 < (m <<< k) / n := Nat.lt_of_lt_of_le (Nat.two_pow_pos _) value
  have log := (Nat.le_log2 (Nat.ne_of_gt pos)).2 value
  unfold UnpackedFloat.div
  dsimp only
  rw [core]
  show Float.Model.pack (roundWithAccuracy .binary64 .positive ((m <<< k) / n) (-k) a) = _
  exact pack_roundWithAccuracy a pos (by omega)

end

/-! ## Numerals -/

theorem ten_pow_le_two_pow (n : Nat) : 10 ^ (n * 3 / 10) ≤ 2 ^ n := by
  rw [← Nat.pow_le_pow_iff_left (n := 10) (by decide)]
  calc (10 ^ (n * 3 / 10)) ^ 10 = 10 ^ (n * 3 / 10 * 10) := (Nat.pow_mul ..).symm
    _ ≤ 10 ^ (3 * n) := Nat.pow_le_pow_right (by decide) (by omega)
    _ = (10 ^ 3) ^ n := Nat.pow_mul ..
    _ ≤ (2 ^ 10) ^ n := Nat.pow_le_pow_left (by decide) n
    _ = (2 ^ n) ^ 10 := by rw [← Nat.pow_mul, ← Nat.pow_mul, Nat.mul_comm]

/-- A power of two that is beyond all doubles, and no more than the bound for the powers of ten. -/
theorem exists_limit : ∃ limit, 1024 ≤ limit ∧ 2 ^ limit ≤ 10 ^ Decimal.overflowExponent.toNat :=
  ⟨1024, Nat.le_refl _, by decide +kernel⟩

namespace Decimal

variable {m : Nat} {e : Int}

/-- A number that is far up by its length is so by its value. -/
theorem large_of_long {limit : Nat} (bound : 2 ^ limit ≤ 10 ^ overflowExponent.toNat) (pos : 0 < m)
    (long : overflowExponent < (m.log2 * 3 / 10 : Nat) + e) : 2 ^ limit * 10 ^ (-e).toNat ≤ m * 10 ^ e.toNat := by
  have whole : overflowExponent.toNat = overflowExponent := rfl
  calc 2 ^ limit * 10 ^ (-e).toNat ≤ 10 ^ overflowExponent.toNat * 10 ^ (-e).toNat := Nat.mul_le_mul_right _ bound
    _ = 10 ^ (overflowExponent.toNat + (-e).toNat) := (Nat.pow_add ..).symm
    _ ≤ 10 ^ (m.log2 * 3 / 10 + e.toNat) := Nat.pow_le_pow_right (by decide) (by omega)
    _ = 10 ^ (m.log2 * 3 / 10) * 10 ^ e.toNat := Nat.pow_add ..
    _ ≤ m * 10 ^ e.toNat := Nat.mul_le_mul_right _
      (Nat.le_trans (ten_pow_le_two_pow _) (Nat.log2_self_le (Nat.ne_of_gt pos)))

/-- Multiplied or divided out, it is rounded to an infinity. -/
theorem ofScientific_of_long (pos : 0 < m) (long : overflowExponent < (m.log2 * 3 / 10 : Nat) + e) :
    Float.Model.ofScientific m e = Float.Model.pack (.infinity .positive) := by
  obtain ⟨limit, far, bound⟩ := exists_limit
  have large := large_of_long bound pos long
  have near : ¬ e < -(2 ^ Format.binary64.exponentBits + (m.log2 : Int)) := by
    have long : 310 < (m.log2 * 3 / 10 : Nat) + e := long
    show ¬ e < -(2048 + (m.log2 : Int))
    omega
  unfold Float.Model.ofScientific UnpackedFloat.ofScientific
  rw [dif_neg (Nat.ne_of_gt pos)]
  by_cases huge : e > 2 ^ Format.binary64.exponentBits
  · rw [if_pos huge]
  rw [if_neg huge, if_neg near]
  by_cases whole : 0 ≤ e
  · rw [if_pos whole]
    rw [show (-e).toNat = 0 by omega, Nat.pow_zero, Nat.mul_one] at large
    exact pack_mul far _ _ large
  · rw [if_neg whole]
    rw [show e.toNat = 0 by omega, Nat.pow_zero, Nat.mul_one] at large
    exact pack_div far _ _ large

/-- So what is far beyond all doubles is an infinity. -/
theorem magnitude_of_long {d : Decimal} (nonzero : d.coefficient ≠ 0) (long : overflowExponent < d.lowerExponent) :
    d.magnitude = Float.ofBits 0x7FF0000000000000 := by
  have pos := Nat.pos_of_ne_zero nonzero
  -- it is not one of the small numbers that are multiplied or divided as doubles
  have slow : ¬ (d.coefficient < 2 ^ 53 ∧ d.exponent.natAbs ≤ 22) := by
    rintro ⟨few, small⟩
    have log := (Nat.log2_lt nonzero).2 few
    have long : 310 < (d.coefficient.log2 * 3 / 10 : Nat) + d.exponent := long
    omega
  have signed : (if decide (d.exponent < 0) = true then Int.negOfNat d.exponent.natAbs else Int.ofNat d.exponent.natAbs) =
      d.exponent := by
    by_cases below : d.exponent < 0
    · rw [if_pos (decide_eq_true below), Int.negOfNat_eq]
      exact (Int.eq_neg_natAbs_of_nonpos (Int.le_of_lt below)).symm
    · rw [if_neg (by simpa using below)]
      exact Int.natAbs_of_nonneg (Int.not_lt.1 below)
  unfold magnitude Float.ofScientific
  rw [dif_neg slow, signed]
  show Float.ofModel (Float.Model.ofScientific d.coefficient d.exponent) = _
  rw [ofScientific_of_long pos long]
  rfl

/-- The shortcut for numerals beyond all doubles makes no difference. -/
theorem toFloat_eq (d : Decimal) : d.toFloat = if d.negative then -d.magnitude else d.magnitude := by
  have same : (if d.coefficient ≠ 0 ∧ overflowExponent < d.lowerExponent then Float.ofBits 0x7FF0000000000000
      else d.magnitude) = d.magnitude := by
    split
    · next far => exact (magnitude_of_long far.1 far.2).symm
    · rfl
  unfold toFloat
  rw [same]

end Decimal

end Lox.Number
