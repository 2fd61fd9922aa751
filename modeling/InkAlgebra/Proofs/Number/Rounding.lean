import Mathlib
import InkAlgebra.Proofs.Number.Exact

/-!
# Rounding in exact arithmetic

Over an ordered field with a floor a power of ten is what its name says, for every exponent that a
32-bit word can hold, and rounding to so many places moves a number by at most half a unit of the
last one.
-/

namespace InkAlgebra

open Exact

variable {K : Type} [Field K] [LinearOrder K]

theorem scalarAbs_eq_abs [IsStrictOrderedRing K] (x : K) : Scalar.abs x = |x| := by
  show (if x < 0 then -x else x) = |x|
  split
  · rename_i hneg
    rw [abs_of_neg hneg]
  · rename_i hneg
    rw [abs_of_nonneg (not_lt.1 hneg)]

theorem half_eq (x : K) : Scalar.half x = x / 2 := by
  show x / ((2 : ℕ) : K) = x / 2
  rw [Nat.cast_ofNat]

/-- Square and multiply on numbers. -/
theorem raise_eq_mul_pow {M : Type} [Monoid M] (n : ℕ) (a b : M) :
    Scalar.raise (· * ·) a b n = a * b ^ n := by
  induction n using Nat.strong_induction_on generalizing a b with
  | _ n ih =>
      rw [Scalar.raise]
      by_cases hn : n = 0
      · rw [if_pos hn, hn, pow_zero, mul_one]
      · have hhalf : n % 2 + 2 * (n / 2) = n := Nat.mod_add_div n 2
        have hodd : (if n % 2 = 1 then a * b else a) = a * b ^ (n % 2) := by
          rcases Nat.mod_two_eq_zero_or_one n with h | h
          · rw [if_neg (by omega), h, pow_zero, mul_one]
          · rw [if_pos h, h, pow_one]
        have hpower : a * b ^ (n % 2) * (b * b) ^ (n / 2) = a * b ^ n := by
          rw [← pow_two, ← pow_mul, mul_assoc, ← pow_add, hhalf]
        rw [if_neg hn]
        dsimp only
        rw [hodd]
        by_cases hlast : n / 2 = 0
        · rw [if_pos hlast, ← hpower, hlast, pow_zero, mul_one]
        · rw [if_neg hlast, ih (n / 2) (by omega), hpower]

theorem tenPower_eq_zpow [FloorRing K] (n : Int32) :
    Coefficient.tenPower n = (10 : K) ^ n.toInt := by
  have hmagnitude : Scalar.raise (· * ·) (1 : K) (Scalar.ofNat 10) n.toInt.natAbs =
      10 ^ n.toInt.natAbs := by
    rw [raise_eq_mul_pow, one_mul]
    show (((10 : ℕ) : K)) ^ _ = _
    rw [Nat.cast_ofNat]
  unfold Coefficient.tenPower
  dsimp only
  rw [hmagnitude]
  by_cases hneg : n < 0
  · have hneg' : n.toInt < 0 := Int32.lt_iff_toInt_lt.1 hneg
    rw [if_pos hneg, one_div, ← zpow_natCast, ← zpow_neg]
    congr 1
    omega
  · have hneg' : ¬ n.toInt < 0 := fun h => hneg (Int32.lt_iff_toInt_lt.2 h)
    rw [if_neg hneg, ← zpow_natCast]
    congr 1
    omega

section

variable [IsStrictOrderedRing K] [FloorRing K]

/-- The nearest whole number is at most a half away. -/
theorem abs_round_sub_le (x : K) : |Coefficient.round x - x| ≤ 1 / 2 := by
  have hfloor : ∀ y : K, |(⌊y + 1 / 2⌋ : K) - y| ≤ 1 / 2 := by
    intro y
    have hle := Int.floor_le (y + 1 / 2)
    have hlt := Int.lt_floor_add_one (y + 1 / 2)
    rw [abs_le]
    constructor <;> linarith
  show |(if x < 0 then -(⌊-x + 1 / 2⌋ : K) else (⌊x + 1 / 2⌋ : K)) - x| ≤ 1 / 2
  split
  · have hmirror : -(⌊-x + 1 / 2⌋ : K) - x = -((⌊-x + 1 / 2⌋ : K) - -x) := by ring
    rw [hmirror, abs_neg]
    exact hfloor (-x)
  · exact hfloor x

/-- **Rounding to places.** A number moves by at most half a unit of the last place. -/
theorem abs_roundTo_sub_le (digits : Int32) (x : K) :
    |Coefficient.roundTo digits x - x| ≤ 10 ^ (-digits.toInt) / 2 := by
  have hscale : (0 : K) < 10 ^ digits.toInt := zpow_pos (by norm_num) _
  unfold Coefficient.roundTo
  dsimp only
  rw [tenPower_eq_zpow]
  have hdiff : Coefficient.round (x * 10 ^ digits.toInt) / 10 ^ digits.toInt - x =
      (Coefficient.round (x * 10 ^ digits.toInt) - x * 10 ^ digits.toInt) / 10 ^ digits.toInt := by
    field_simp
  calc |Coefficient.round (x * 10 ^ digits.toInt) / 10 ^ digits.toInt - x|
      = |Coefficient.round (x * 10 ^ digits.toInt) - x * 10 ^ digits.toInt| /
          10 ^ digits.toInt := by
        rw [hdiff, abs_div, abs_of_pos hscale]
    _ ≤ (1 / 2) / 10 ^ digits.toInt := by
        gcongr
        exact abs_round_sub_le _
    _ = 10 ^ (-digits.toInt) / 2 := by
        rw [zpow_neg]
        field_simp

end

end InkAlgebra
