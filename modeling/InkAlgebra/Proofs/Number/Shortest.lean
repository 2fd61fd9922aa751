import Mathlib
import InkAlgebra.Number.Shortest
import InkAlgebra.Proofs.Number.Packing

/-!
# Shortest decimals are positive

The digits that stand for a number other than zero are not all zero: a point of a decimal grid that
reads back as the number lies above the lower end of its interval, and the last resort, which cuts
the number off, still has its leading digit.

§1 is decades, §2 the search, §3 binary64.
-/

namespace InkAlgebra

/-! ## §1  Decades -/

theorem lt_pow_digitCount (n : ℕ) : n < 10 ^ digitCount n := by
  fun_induction digitCount n with
  | case1 n h => omega
  | case2 n h ih => omega

theorem pow_digitCount_le {n : ℕ} (hn : 0 < n) : 10 ^ (digitCount n - 1) ≤ n := by
  fun_induction digitCount n with
  | case1 n h => exact hn
  | case2 n h ih =>
      have hpos := digitCount_pos (n / 10)
      have hstep : 10 ^ digitCount (n / 10) = 10 ^ (digitCount (n / 10) - 1) * 10 := by
        rw [← pow_succ, Nat.sub_add_cancel hpos]
      have hrest := ih (by omega)
      rw [Nat.add_sub_cancel, hstep]
      omega

/-- A quotient reaches the place of its leading digit. -/
theorem mul_pow_leadingPlace_le {numerator : ℕ} (hnumerator : 0 < numerator) (denominator : ℕ) :
    denominator * 10 ^ (leadingPlace numerator denominator).toNat ≤
      numerator * 10 ^ (-leadingPlace numerator denominator).toNat := by
  unfold leadingPlace
  dsimp only
  split
  · rename_i hreaches
    exact of_decide_eq_true hreaches
  · generalize hplace : (digitCount numerator : ℤ) - digitCount denominator - 1 = place
    have hpos := digitCount_pos numerator
    calc denominator * 10 ^ place.toNat
        ≤ 10 ^ digitCount denominator * 10 ^ place.toNat :=
          Nat.mul_le_mul_right _ (lt_pow_digitCount denominator).le
      _ = 10 ^ (digitCount numerator - 1) * 10 ^ (-place).toNat := by
          rw [← pow_add, ← pow_add]
          congr 1
          omega
      _ ≤ numerator * 10 ^ (-place).toNat := Nat.mul_le_mul_right _ (pow_digitCount_le hnumerator)

/-! ## §2  The search -/

theorem Decimal.trimmed_digits_pos {d : Decimal} (h : 0 < d.digits) : 0 < d.trimmed.digits := by
  fun_induction Decimal.trimmed d with
  | case1 d hd ih =>
      refine ih ?_
      dsimp only
      omega
  | case2 d hd => exact h

namespace ReadingInterval

theorem digits_pos_of_contains {i : ReadingInterval} (hlow : 0 < i.low) {d : Decimal}
    (h : i.contains d = true) :
    0 < d.digits := by
  have hscale : 0 < i.low * Nat.pow 10 (-d.exponent).toNat :=
    Nat.mul_pos hlow (Nat.pow_pos (by decide))
  unfold contains at h
  dsimp only at h
  by_contra hzero
  obtain hzero : d.digits = 0 := by omega
  rw [hzero] at h
  split at h
  · simp at h
    omega
  · simp at h

theorem contains_of_pick? {tie : TieRule} {i : ReadingInterval} {exponent : ℤ} {d : Decimal}
    (h : i.pick? tie exponent = some d) : i.contains d = true := by
  unfold pick? at h
  dsimp only at h
  split at h
  · rename_i hbelow _
    obtain rfl := Option.some.inj h
    exact hbelow
  · rename_i _ habove
    obtain rfl := Option.some.inj h
    exact habove
  · cases h
  · rename_i hbelow habove
    split at h
    · obtain rfl := Option.some.inj h
      exact hbelow
    · split at h
      · obtain rfl := Option.some.inj h
        exact habove
      · split at h
        · obtain rfl := Option.some.inj h
          exact habove
        · split at h
          · obtain rfl := Option.some.inj h
            exact hbelow
          · obtain rfl := Option.some.inj h
            exact habove

/-- Cut off behind its leading place, a number has a digit left. -/
theorem digits_pos_of_cutOff {i : ReadingInterval} (hvalue : 0 < i.value)
    (hdenominator : 0 < i.denominator) (n : ℕ) :
    0 < i.value * Nat.pow 10 (n - leadingPlace i.value i.denominator).toNat /
      (Nat.pow 10 (leadingPlace i.value i.denominator - n).toNat * i.denominator) := by
  have hreaches := mul_pow_leadingPlace_le hvalue i.denominator
  generalize leadingPlace i.value i.denominator = place at hreaches ⊢
  refine Nat.div_pos ?_ (Nat.mul_pos (Nat.pow_pos (by decide)) hdenominator)
  calc Nat.pow 10 (place - n).toNat * i.denominator
      = i.denominator * 10 ^ (place - n).toNat := Nat.mul_comm _ _
    _ ≤ i.denominator * 10 ^ place.toNat :=
      Nat.mul_le_mul_left _ (Nat.pow_le_pow_right (by decide) (by omega))
    _ ≤ i.value * 10 ^ (-place).toNat := hreaches
    _ ≤ i.value * 10 ^ (n - place).toNat :=
      Nat.mul_le_mul_left _ (Nat.pow_le_pow_right (by decide) (by omega))

theorem digits_pos_search (tie : TieRule) {i : ReadingInterval} (hlow : 0 < i.low)
    (hvalue : 0 < i.value) (hdenominator : 0 < i.denominator) (tries n : ℕ) :
    0 < (i.search tie (leadingPlace i.value i.denominator) tries n).digits := by
  induction tries generalizing n with
  | zero => exact digits_pos_of_cutOff hvalue hdenominator n
  | succ tries ih =>
      unfold search
      split
      · rename_i d hpick
        exact Decimal.trimmed_digits_pos (digits_pos_of_contains hlow (contains_of_pick? hpick))
      · exact ih (n + 1)

end ReadingInterval

/-! ## §3  Binary64 -/

namespace Binary64

open Float.Model (Format UnpackedFloat)
open Float.Model.UnpackedFloat (Sign unpackSign unpackExponent unpackMantissa)

theorem toNat_unpackMantissa (x : Float) :
    (@unpackMantissa Format.binary64 x.toModel.toBits.toBitVec).toNat = fraction x := by
  have hmod : fraction x = x.toBits.toBitVec.toNat % 2 ^ 52 := by
    rw [fraction, UInt64.toNat_and]
    exact Nat.and_two_pow_sub_one_eq_mod _ 52
  rw [hmod]
  simp [unpackMantissa, BitVec.extractLsb, Float.toBits]

theorem toNat_unpackExponent (x : Float) :
    (@unpackExponent Format.binary64 x.toModel.toBits.toBitVec).toNat = exponentField x := by
  have hmod : exponentField x = x.toBits.toBitVec.toNat >>> 52 % 2 ^ 11 := by
    rw [exponentField, UInt64.toNat_and, UInt64.toNat_shiftRight]
    exact Nat.and_two_pow_sub_one_eq_mod _ 11
  rw [hmod]
  simp [unpackExponent, BitVec.extractLsb, Float.toBits]

/-- Of a number other than zero something is left of its significand. -/
theorem mantissa_pos {x : Float} (h : (x == 0) = false) : 0 < mantissa x := by
  by_contra hzero
  have hfields : exponentField x = 0 ∧ fraction x = 0 := by
    have hhidden : 0 < Nat.pow 2 52 := by decide
    unfold mantissa at hzero
    split at hzero <;> omega
  have hexponent : @unpackExponent Format.binary64 x.toModel.toBits.toBitVec = 0#11 := by
    refine BitVec.eq_of_toNat_eq ?_
    rw [toNat_unpackExponent, hfields.1]
    rfl
  have hfraction : @unpackMantissa Format.binary64 x.toModel.toBits.toBitVec = 0#52 := by
    refine BitVec.eq_of_toNat_eq ?_
    rw [toNat_unpackMantissa, hfields.2]
    rfl
  refine beq_zero_eq_false.1 h
    (.ofBitVec (@unpackSign Format.binary64 x.toModel.toBits.toBitVec)) ?_
  unfold Float.Model.unpack UnpackedFloat.unpack
  dsimp only
  rw [if_neg (by rw [hexponent]; decide), if_pos hexponent, dif_pos hfraction]

end Binary64

/-- **Digits are not zero.** -/
theorem shortestDecimal_digits_pos (tie : TieRule) {x : Float} (h : (x == 0) = false) :
    0 < (shortestDecimal tie x).digits := by
  have hmantissa := Binary64.mantissa_pos h
  have hup : 0 < Nat.pow 2 (Binary64.exponent x - 2).toNat := Nat.pow_pos (by decide)
  refine ReadingInterval.digits_pos_search tie ?_ ?_ ?_ 17 1
  · unfold ReadingInterval.ofBinary
    dsimp only
    split
    · exact Nat.mul_pos (by omega) hup
    · exact Nat.mul_pos (by omega) hup
  · exact Nat.mul_pos (by omega) hup
  · exact Nat.pow_pos (by decide)

end InkAlgebra
