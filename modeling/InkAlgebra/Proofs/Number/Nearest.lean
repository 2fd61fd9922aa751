import Mathlib
import InkAlgebra.Proofs.Number.Units

/-!
# Rounding to the nearest number of binary64

An operation works out its result exactly, as far as that matters, and rounds it once, to the
nearest number that the format has room for. What follows from it for sizes is that rounding does
not pass a number of the format: what is at most such a number, or nearer to it than half a unit of
its last place, is not rounded to more, and what is at least such a number is not rounded to less.

The exact result is a rational number. All that is kept of it is a significand that it is cut off to
and how the rest compares with a half (`Locates`).

§1 is significands, §2 rounding, §3 what it does not pass, §4 the way back into bits.
-/

namespace InkAlgebra

namespace Binary64

open Float.Model (Format UnpackedFloat totalExponent)
open Float.Model.UnpackedFloat (Sign Accuracy ExtendedMantissa)

/-! ## §1  Significands -/

/-- What a significand and the accuracy that is kept with it tell of a number. -/
def Locates (x : ℚ) (m : ℕ) : Accuracy → Prop
  | .exact => x = m
  | .inexact .lt => m < x ∧ x < m + 1 / 2
  | .inexact .eq => x = m + 1 / 2
  | .inexact .gt => m + 1 / 2 < x ∧ x < m + 1

variable {x : ℚ} {m n k : ℕ} {e f : ℤ} {a : Accuracy} {s : Sign} {u : UnpackedFloat}

theorem Locates.le_and_lt (h : Locates x m a) : m ≤ x ∧ x < m + 1 := by
  cases a with
  | exact =>
      obtain rfl : x = m := h
      constructor <;> linarith
  | inexact o =>
      cases o with
      | lt =>
          obtain ⟨hlow, hhigh⟩ := h
          constructor <;> linarith
      | eq =>
          obtain rfl : x = m + 1 / 2 := h
          constructor <;> linarith
      | gt =>
          obtain ⟨hlow, hhigh⟩ := h
          constructor <;> linarith

/-- The bit that is shifted out and what was there before it tell how the rest compares with a
half. -/
theorem locates_shiftRightOne {em : ExtendedMantissa} (h : Locates x em.mantissa em.accuracy) :
    Locates (x / 2) em.shiftRightOne.mantissa em.shiftRightOne.accuracy := by
  obtain ⟨m, half, rest⟩ := em
  have hsplit : (m : ℚ) = 2 * (m / 2 : ℕ) + (m % 2 : ℕ) := by
    exact_mod_cast (Nat.div_add_mod m 2).symm
  rcases Nat.mod_two_eq_zero_or_one m with hbit | hbit
  · rw [hbit] at hsplit
    cases half <;> cases rest <;>
      simp [Locates, ExtendedMantissa.accuracy, ExtendedMantissa.shiftRightOne, hbit,
        hsplit] at h ⊢ <;> grind
  · rw [hbit] at hsplit
    cases half <;> cases rest <;>
      simp [Locates, ExtendedMantissa.accuracy, ExtendedMantissa.shiftRightOne, hbit,
        hsplit] at h ⊢ <;> grind

theorem accuracy_ofMantissaAndAccuracy (m : ℕ) (a : Accuracy) :
    (ExtendedMantissa.ofMantissaAndAccuracy m a).mantissa = m ∧
      (ExtendedMantissa.ofMantissaAndAccuracy m a).accuracy = a := by
  cases a with
  | exact => exact ⟨rfl, rfl⟩
  | inexact o => cases o <;> exact ⟨rfl, rfl⟩

theorem locates_shiftRight (h : Locates x m a) (k : ℕ) :
    Locates (x / 2 ^ k) (ExtendedMantissa.ofMantissaAndAccuracy m a >>> k).mantissa
      (ExtendedMantissa.ofMantissaAndAccuracy m a >>> k).accuracy := by
  show Locates _ (k.repeat ExtendedMantissa.shiftRightOne _).mantissa
      (k.repeat ExtendedMantissa.shiftRightOne _).accuracy
  induction k with
  | zero =>
      obtain ⟨hmantissa, haccuracy⟩ := accuracy_ofMantissaAndAccuracy m a
      rw [pow_zero, div_one, Nat.repeat, hmantissa, haccuracy]
      exact h
  | succ k ih =>
      rw [pow_succ, ← div_div, Nat.repeat]
      exact locates_shiftRightOne ih

/-- Rounding a significand goes to the nearest whole number: never past one that is no further off
than a half. -/
theorem roundedMantissa_le {em : ExtendedMantissa} (h : Locates x em.mantissa em.accuracy)
    (hx : x < n + 1 / 2) :
    em.roundedMantissa ≤ n := by
  obtain ⟨hlow, hhigh⟩ := h.le_and_lt
  have hcut : em.mantissa < n + 1 := by
    have : (em.mantissa : ℚ) < n + 1 := by linarith
    exact_mod_cast this
  unfold ExtendedMantissa.roundedMantissa
  cases hem : em.accuracy with
  | exact => exact Nat.lt_succ_iff.1 hcut
  | inexact o =>
      rw [hem] at h
      cases o with
      | lt => exact Nat.lt_succ_iff.1 hcut
      | eq =>
          obtain rfl : x = em.mantissa + 1 / 2 := h
          have hbelow : em.mantissa < n := by
            have : (em.mantissa : ℚ) < n := by linarith
            exact_mod_cast this
          show em.mantissa + em.mantissa % 2 ≤ n
          omega
      | gt =>
          have hbelow : em.mantissa < n := by
            have : (em.mantissa : ℚ) < n := by linarith [h.1]
            exact_mod_cast this
          exact hbelow

theorem le_roundedMantissa {em : ExtendedMantissa} (h : Locates x em.mantissa em.accuracy)
    (hx : n ≤ x) :
    n ≤ em.roundedMantissa := by
  have hcut : n ≤ em.mantissa := by
    have : (n : ℚ) < em.mantissa + 1 := hx.trans_lt h.le_and_lt.2
    exact Nat.lt_succ_iff.1 (by exact_mod_cast this)
  refine hcut.trans ?_
  unfold ExtendedMantissa.roundedMantissa
  cases em.accuracy with
  | exact => exact le_rfl
  | inexact o =>
      cases o with
      | lt => exact le_rfl
      | eq => exact Nat.le_add_right _ _
      | gt => exact Nat.le_succ _

/-! ## §2  Rounding -/

/-- The size of a number that is finite. -/
def size : UnpackedFloat → ℚ
  | .finite _ m e _ => m * 2 ^ e
  | _ => 0

/-- What the format has room for if there is no highest exponent. -/
inductive Rounded : UnpackedFloat → Prop
  | zero (s : Sign) : Rounded (.zero s)
  | small (s : Sign) (m : ℕ) (hpos : 0 < m) (hm : m < 2 ^ 52) : Rounded (.finite s m (-1074) hpos)
  | full (s : Sign) (m : ℕ) (e : ℤ) (hpos : 0 < m) (hlow : 2 ^ 52 ≤ m) (hhigh : m < 2 ^ 53)
      (hleast : -1074 ≤ e) :
      Rounded (.finite s m e hpos)

theorem targetExponent_eq (m : ℕ) (e : ℤ) :
    Format.binary64.targetExponent (totalExponent m e) = max (m.log2 + 1 + e - 53) (-1074) := by
  have hleast : Format.binary64.minExponent = -1074 := by decide
  rw [Format.targetExponent, totalExponent, hleast]
  rfl

/-- No bit is shifted out of a significand that the format has room for. -/
theorem shiftToTargetExponent_of_lt (hm : m < 2 ^ 53) (he : -1074 ≤ e) :
    UnpackedFloat.shiftToTargetExponent Format.binary64 m e .exact = (⟨m, false, false⟩, e) := by
  have hlog : m.log2 ≤ 52 := by
    rcases Nat.eq_zero_or_pos m with rfl | hpos
    · decide
    · exact Nat.lt_succ_iff.1 ((Nat.log2_lt hpos.ne').2 hm)
  have hstay : (max (m.log2 + 1 + e - 53 : ℤ) (-1074) - e).toNat = 0 := by omega
  rw [UnpackedFloat.shiftToTargetExponent, targetExponent_eq, UnpackedFloat.shiftToExponent, hstay]
  exact Prod.ext rfl (add_zero e)

/-- A significand that was rounded up to one bit more is shifted once. -/
theorem shiftToTargetExponent_of_eq (he : -1074 ≤ e) :
    UnpackedFloat.shiftToTargetExponent Format.binary64 (2 ^ 53) e .exact =
        (⟨2 ^ 52, false, false⟩, e + 1) := by
  have hlog : (2 ^ 53 : ℕ).log2 = 53 := Nat.log2_two_pow
  have hone : (max ((2 ^ 53 : ℕ).log2 + 1 + e - 53 : ℤ) (-1074) - e).toNat = 1 := by
    rw [hlog]
    omega
  rw [UnpackedFloat.shiftToTargetExponent, targetExponent_eq, UnpackedFloat.shiftToExponent, hone]
  rfl

/-- Behind the first shift nothing is rounded any more. -/
theorem roundWithAccuracy_of_shifted {t : ℤ} {em : ExtendedMantissa}
    (hshift : UnpackedFloat.shiftToTargetExponent Format.binary64 m e a = (em, t)) (ht : -1074 ≤ t)
    (hn : em.roundedMantissa ≤ 2 ^ 53) (hlow : t = -1074 ∨ 2 ^ 52 ≤ em.roundedMantissa) :
    size (UnpackedFloat.roundWithAccuracy Format.binary64 s m e a) = em.roundedMantissa * 2 ^ t ∧
      Rounded (UnpackedFloat.roundWithAccuracy Format.binary64 s m e a) := by
  rw [UnpackedFloat.roundWithAccuracy, hshift]
  dsimp only
  generalize em.roundedMantissa = n at hn hlow ⊢
  rcases hn.lt_or_eq with hlt | rfl
  · rw [shiftToTargetExponent_of_lt hlt ht]
    dsimp only
    split
    · rename_i hzero
      refine ⟨?_, .zero s⟩
      rw [hzero]
      simp [size]
    · rename_i hzero
      refine ⟨rfl, ?_⟩
      by_cases hfull : 2 ^ 52 ≤ n
      · exact .full s n t _ hfull hlt ht
      · obtain rfl : t = -1074 := hlow.resolve_right hfull
        exact .small s n _ (Nat.lt_of_not_le hfull)
  · rw [shiftToTargetExponent_of_eq ht]
    refine ⟨?_, .full s (2 ^ 52) (t + 1) _ le_rfl (by decide) (by omega)⟩
    show ((2 ^ 52 : ℕ) : ℚ) * 2 ^ (t + 1) = (2 ^ 53 : ℕ) * 2 ^ t
    rw [zpow_add₀ two_ne_zero]
    push_cast
    ring

/-- Rounding keeps the sign, also of what is rounded to zero. -/
theorem roundWithAccuracy_cases (s : Sign) (m : ℕ) (e : ℤ) (a : Accuracy) :
    UnpackedFloat.roundWithAccuracy Format.binary64 s m e a = .zero s ∨
      ∃ n f hn, UnpackedFloat.roundWithAccuracy Format.binary64 s m e a = .finite s n f hn := by
  rw [UnpackedFloat.roundWithAccuracy]
  dsimp only
  split
  · exact .inl rfl
  · rename_i hne
    exact .inr ⟨_, _, Nat.pos_of_ne_zero hne, rfl⟩

/-- **Rounding.** The exact result is taken to the place that its size asks for, but to none below
the least exponent, and a whole number of units of this place is what it is rounded to: one that no
whole number or half between them separates from it. -/
theorem exists_rounded (s : Sign) (hx : Locates x m a)
    (hready : e ≤ max (m.log2 + 1 + e - 53 : ℤ) (-1074)) (hcut : m ≠ 0 ∨ e ≤ -1074) :
    ∃ (t : ℤ) (n : ℕ), -1074 ≤ t ∧ (t = -1074 ∨ 2 ^ 52 ≤ x * 2 ^ (e - t)) ∧
      x * 2 ^ (e - t) < 2 ^ 53 ∧
      (∀ k : ℕ, x * 2 ^ (e - t) < k + 1 / 2 → n ≤ k) ∧ (∀ k : ℕ, k ≤ x * 2 ^ (e - t) → k ≤ n) ∧
      size (UnpackedFloat.roundWithAccuracy Format.binary64 s m e a) = n * 2 ^ t ∧
      Rounded (UnpackedFloat.roundWithAccuracy Format.binary64 s m e a) := by
  obtain ⟨k, hk⟩ : ∃ k : ℕ, max (m.log2 + 1 + e - 53 : ℤ) (-1074) = e + k :=
    ⟨(max (m.log2 + 1 + e - 53 : ℤ) (-1074) - e).toNat, by omega⟩
  have hshift : UnpackedFloat.shiftToTargetExponent Format.binary64 m e a =
      (ExtendedMantissa.ofMantissaAndAccuracy m a >>> k, e + k) := by
    have hamount : (e + k - e).toNat = k := by omega
    rw [UnpackedFloat.shiftToTargetExponent, targetExponent_eq, hk,
      UnpackedFloat.shiftToExponent, hamount]
  have hplaces := locates_shiftRight hx k
  have hscale : x * 2 ^ (e - (e + k)) = x / 2 ^ k := by
    rw [show e - (e + k) = -(k : ℤ) by omega, zpow_neg, zpow_natCast, div_eq_mul_inv]
  obtain ⟨hmx, hxm⟩ := hx.le_and_lt
  have hhigh : x / 2 ^ k < 2 ^ 53 := by
    have hbits : (m : ℚ) + 1 ≤ 2 ^ (m.log2 + 1) := by exact_mod_cast Nat.lt_log2_self
    rw [div_lt_iff₀ (by positivity), ← pow_add]
    refine (hxm.trans_le hbits).trans_le (pow_le_pow_right₀ one_le_two ?_)
    omega
  have hlow : e + k = -1074 ∨ (2 : ℚ) ^ 52 ≤ x / 2 ^ k := by
    by_cases hleast : e + k = -1074
    · exact .inl hleast
    right
    have hm : m ≠ 0 := by
      rintro rfl
      have hlog : (0 : ℕ).log2 = 0 := rfl
      rw [hlog] at hk
      omega
    have hbits : (2 : ℚ) ^ m.log2 ≤ m := by exact_mod_cast Nat.log2_self_le hm
    rw [le_div_iff₀ (by positivity), ← pow_add]
    refine (pow_le_pow_right₀ one_le_two ?_).trans (hbits.trans hmx)
    omega
  have hle : ∀ j : ℕ, x / 2 ^ k < j + 1 / 2 →
      (ExtendedMantissa.ofMantissaAndAccuracy m a >>> k).roundedMantissa ≤ j :=
    fun j => roundedMantissa_le hplaces
  have hge : ∀ j : ℕ, j ≤ x / 2 ^ k →
      j ≤ (ExtendedMantissa.ofMantissaAndAccuracy m a >>> k).roundedMantissa :=
    fun j => le_roundedMantissa hplaces
  have hrounded := roundWithAccuracy_of_shifted (s := s) hshift (by omega)
    (hle (2 ^ 53) (by push_cast; linarith))
    (hlow.imp id fun h => hge (2 ^ 52) (by exact_mod_cast h))
  refine ⟨e + k, _, by omega, ?_, ?_, ?_, ?_, hrounded⟩
  · rwa [hscale]
  · rwa [hscale]
  · rwa [hscale]
  · rwa [hscale]

/-! ## §3  What rounding does not pass -/

/-- A significand with its highest bit makes a number that none with a lower exponent passes. -/
theorem mul_zpow_le_of_lt {p q : ℚ} (hp : p ≤ 2 ^ 53) (hq : 2 ^ 52 ≤ q) (h : f < e) :
    p * 2 ^ f ≤ q * 2 ^ e := by
  have hpos : (0 : ℚ) ≤ 2 ^ f := by positivity
  calc p * 2 ^ f ≤ 2 ^ 53 * 2 ^ f := mul_le_mul_of_nonneg_right hp hpos
    _ = 2 ^ 52 * 2 ^ (f + 1) := by
        rw [zpow_add₀ two_ne_zero]
        ring
    _ ≤ q * 2 ^ e := mul_le_mul hq (zpow_le_zpow_right₀ one_le_two (by omega))
      (by positivity) (by linarith)

/-- What is less than half a unit above a number of the format is not rounded to more than this
number. -/
theorem size_roundWithAccuracy_le (s : Sign) (hx : Locates x m a)
    (hready : e ≤ max (m.log2 + 1 + e - 53 : ℤ) (-1074)) (hcut : m ≠ 0 ∨ e ≤ -1074)
    (hk : k < 2 ^ 53) (hf : f = -1074 ∨ -1074 ≤ f ∧ 2 ^ 52 ≤ k)
    (hle : x * 2 ^ e < (k + 1 / 2) * 2 ^ f) :
    size (UnpackedFloat.roundWithAccuracy Format.binary64 s m e a) ≤ k * 2 ^ f := by
  obtain ⟨t, n, ht, hlow, hhigh, hn, _, hsize, _⟩ := exists_rounded s hx hready hcut
  have hsplit : x * 2 ^ (e - t) * 2 ^ t = x * 2 ^ e := by
    rw [mul_assoc, ← zpow_add₀ two_ne_zero, sub_add_cancel]
  have hpow : (0 : ℚ) < 2 ^ t := by positivity
  have hkq : (k : ℚ) + 1 ≤ 2 ^ 53 := by exact_mod_cast hk
  rw [hsize]
  rw [← hsplit] at hle
  rcases lt_trichotomy t f with hlt | rfl | hgt
  · -- the exact result has fewer places than the number that bounds it
    have hfull : (2 : ℚ) ^ 52 ≤ k := by
      rcases hf with rfl | ⟨_, hfull⟩
      · omega
      · exact_mod_cast hfull
    have hnq : (n : ℚ) ≤ 2 ^ 53 := by exact_mod_cast hn (2 ^ 53) (by push_cast; linarith)
    exact mul_zpow_le_of_lt hnq hfull hlt
  · have hnk : n ≤ k := hn k (lt_of_mul_lt_mul_right hle hpow.le)
    gcongr
  · -- one place more would make it larger
    have hfull : (2 : ℚ) ^ 52 ≤ x * 2 ^ (e - t) := by
      rcases hlow with rfl | hfull
      · rcases hf with rfl | ⟨hf, _⟩ <;> omega
      · exact hfull
    exact absurd hle (not_lt_of_ge (mul_zpow_le_of_lt (by linarith) hfull hgt))

/-- What is not below a number of the format is not rounded to less than this number. -/
theorem le_size_roundWithAccuracy (s : Sign) (hx : Locates x m a)
    (hready : e ≤ max (m.log2 + 1 + e - 53 : ℤ) (-1074)) (hcut : m ≠ 0 ∨ e ≤ -1074)
    (hk : k < 2 ^ 53) (hf : -1074 ≤ f) (hle : k * 2 ^ f ≤ x * 2 ^ e) :
    k * 2 ^ f ≤ size (UnpackedFloat.roundWithAccuracy Format.binary64 s m e a) := by
  obtain ⟨t, n, ht, hlow, _, _, hn, hsize, _⟩ := exists_rounded s hx hready hcut
  have hsplit : x * 2 ^ (e - t) * 2 ^ t = x * 2 ^ e := by
    rw [mul_assoc, ← zpow_add₀ two_ne_zero, sub_add_cancel]
  have hpow : (0 : ℚ) < 2 ^ t := by positivity
  rw [hsize]
  rw [← hsplit] at hle
  rcases le_or_gt t f with hle' | hgt
  · obtain ⟨j, rfl⟩ : ∃ j : ℕ, f = t + j := ⟨(f - t).toNat, by omega⟩
    have hgrid : (k : ℚ) * 2 ^ (t + j : ℤ) = (k * 2 ^ j : ℕ) * 2 ^ t := by
      rw [zpow_add₀ two_ne_zero, zpow_natCast]
      push_cast
      ring
    rw [hgrid] at hle ⊢
    have hnk : k * 2 ^ j ≤ n := hn _ (le_of_mul_le_mul_right hle hpow)
    gcongr
  · have hfull : (2 : ℚ) ^ 52 ≤ x * 2 ^ (e - t) := by
      rcases hlow with rfl | hfull
      · omega
      · exact hfull
    have hnq : (2 : ℚ) ^ 52 ≤ n := by exact_mod_cast hn (2 ^ 52) (by exact_mod_cast hfull)
    exact mul_zpow_le_of_lt (by exact_mod_cast hk.le) hnq hgt

/-- What is known of the number that a size is rounded to. -/
structure Nearest (z : ℚ) (u : UnpackedFloat) : Prop where
  rounded : Rounded u
  size_le : ∀ {k : ℕ} {f : ℤ}, k < 2 ^ 53 → (f = -1074 ∨ -1074 ≤ f ∧ 2 ^ 52 ≤ k) →
    z < (k + 1 / 2) * 2 ^ f → size u ≤ k * 2 ^ f
  le_size : ∀ {k : ℕ} {f : ℤ}, k < 2 ^ 53 → -1074 ≤ f → k * 2 ^ f ≤ z → k * 2 ^ f ≤ size u

theorem nearest_roundWithAccuracy (s : Sign) (hx : Locates x m a)
    (hready : e ≤ max (m.log2 + 1 + e - 53 : ℤ) (-1074)) (hcut : m ≠ 0 ∨ e ≤ -1074) :
    Nearest (x * 2 ^ e) (UnpackedFloat.roundWithAccuracy Format.binary64 s m e a) := by
  refine ⟨?_, size_roundWithAccuracy_le s hx hready hcut,
    le_size_roundWithAccuracy s hx hready hcut⟩
  obtain ⟨_, _, _, _, _, _, _, _, hrounded⟩ := exists_rounded s hx hready hcut
  exact hrounded

/-! ## §4  Back into bits -/

/-- The size of the largest number. -/
def largest : ℚ := (2 ^ 53 - 1 : ℕ) * 2 ^ (971 : ℤ)

theorem Fits.size_le_largest (h : Fits u) : size u ≤ largest := by
  have hpos : 0 ≤ largest := by
    unfold largest
    positivity
  cases h with
  | notANumber | infinity s | zero s => exact hpos
  | small s m _ hm =>
      show (m : ℚ) * 2 ^ (-1074 : ℤ) ≤ _
      unfold largest
      gcongr
      · omega
      · exact one_le_two
      · decide
  | full s m e _ _ hhigh _ hmost =>
      show (m : ℚ) * 2 ^ e ≤ _
      unfold largest
      gcongr
      · omega
      · exact one_le_two

/-- No more than the largest number, and it has room in the format. -/
theorem Rounded.fits (h : Rounded u) (hsize : size u ≤ largest) : Fits u := by
  cases h with
  | zero s => exact .zero s
  | small s m hpos hm => exact .small s m hpos hm
  | full s m e hpos hlow hhigh hleast =>
      refine .full s m e hpos hlow hhigh hleast ?_
      by_contra hover
      refine absurd hsize (not_le_of_gt ?_)
      show _ < (m : ℚ) * 2 ^ e
      have hbeyond : (2 ^ 53 : ℚ) * 2 ^ (971 : ℤ) ≤ m * 2 ^ e :=
        mul_zpow_le_of_lt le_rfl (by exact_mod_cast hlow) (by omega)
      refine LT.lt.trans_le ?_ hbeyond
      exact mul_lt_mul_of_pos_right (by norm_num) (by positivity)

/-- What is rounded fits, or is infinite once it is put into bits. -/
theorem Rounded.fits_or_infinite (h : Rounded u) :
    Fits u ∨ ∃ s m e hpos, u = .finite s m e hpos ∧
      UnpackedFloat.unpack Format.binary64 (UnpackedFloat.pack Format.binary64 u) =
          .infinity s := by
  cases h with
  | zero s => exact .inl (.zero s)
  | small s m hpos hm => exact .inl (.small s m hpos hm)
  | full s m e hpos hlow hhigh hleast =>
      by_cases hmost : e ≤ 971
      · exact .inl (.full s m e hpos hlow hhigh hleast hmost)
      refine .inr ⟨s, m, e, hpos, rfl, ?_⟩
      have hover : 2 ^ Format.binary64.exponentBits ≤
          (e + Format.binary64.exponentBias +
            Format.binary64.mantissaBitsWithoutImplicit).toNat + 1 := by
        rw [exponentBias_eq]
        show 2 ^ 11 ≤ (e + 1023 + (52 : ℕ)).toNat + 1
        omega
      have hpack : UnpackedFloat.pack Format.binary64 (.finite s m e hpos) =
          UnpackedFloat.pack Format.binary64 (.infinity s) := if_pos hover
      rw [hpack]
      exact unpack_pack (.infinity s)

/-- A rounded number above zero stays above zero, if need be as infinity. -/
theorem Rounded.unpack_pack_positive (h : Rounded u)
    (hsign : u = .zero .positive ∨ ∃ m e hm, u = .finite .positive m e hm) (hpos : 0 < size u) :
    UnpackedFloat.unpack Format.binary64 (UnpackedFloat.pack Format.binary64 u) =
      .infinity .positive ∨
      ∃ m e hm, UnpackedFloat.unpack Format.binary64 (UnpackedFloat.pack Format.binary64 u) =
        .finite .positive m e hm ∧ size u = m * 2 ^ e := by
  rcases hsign with rfl | ⟨m, e, hm, rfl⟩
  · exact absurd hpos (lt_irrefl _)
  · rcases h.fits_or_infinite with hfits | ⟨t, _, _, _, heq, hinfinite⟩
    · exact .inr ⟨m, e, hm, unpack_pack hfits, rfl⟩
    · obtain ⟨rfl, -, -⟩ := UnpackedFloat.finite.inj heq
      exact .inl hinfinite

end Binary64

end InkAlgebra
