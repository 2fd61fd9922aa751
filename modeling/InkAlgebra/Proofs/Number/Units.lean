import Mathlib
import InkAlgebra.Proofs.Number.Shortest

/-!
# Units, sizes and counts in binary64

What rounding leaves alone: a number that is multiplied by one, a number whose sign is split off and
put back, and a whole number below `2 ^ 53`, which keeps its place in the order and can be counted
again. The first two hold of every number. One times the least number above zero is that number,
although products of numbers so small are zero as a rule.

§1 is one, §2 sizes, §3 whole numbers.
-/

namespace InkAlgebra

namespace Binary64

open Float.Model (Format UnpackedFloat totalExponent)
open Float.Model.UnpackedFloat (Sign ExtendedMantissa)

/-! ## §1  One -/

/-- One has the highest bit of its significand only. -/
def one : UnpackedFloat := .finite .positive (2 ^ 52) (-52) (by decide)

theorem unpack_one : (1 : Float).toModel.unpack = one := rfl

theorem sign_mul_positive (s : Sign) : s * .positive = s := by
  cases s <;> rfl

theorem mul_eq_ofModel (x y : Float) :
    x * y = .ofModel (.pack (.mul Format.binary64 x.toModel.unpack y.toModel.unpack)) := rfl

theorem mul_one_of_fits {u : UnpackedFloat} (h : Fits u) :
    UnpackedFloat.mul Format.binary64 u one = u := by
  cases h with
  | notANumber => rfl
  | infinity s => cases s <;> rfl
  | zero s => cases s <;> rfl
  | small s m hpos hm =>
      have hround := roundWithAccuracy_of_target s 52 hpos (targetExponent_small hpos hm)
      rw [one, UnpackedFloat.mul, sign_mul_positive]
      exact hround
  | full s m e hpos hlow hhigh hleast hmost =>
      have hlog : m.log2 = 52 := (Nat.log2_eq_iff hpos.ne').2 ⟨hlow, hhigh⟩
      have hround := roundWithAccuracy_of_target s 52 hpos (targetExponent_full hlog hleast)
      rw [one, UnpackedFloat.mul, sign_mul_positive]
      exact hround

/-- Products do not depend on the order of their factors. -/
protected theorem mul_comm (x y : Float) : x * y = y * x := by
  have hsign : ∀ s t : Sign, s * t = t * s := by
    intro s t
    cases s <;> cases t <;> rfl
  rw [mul_eq_ofModel, mul_eq_ofModel]
  congr 2
  cases x.toModel.unpack with
  | notANumber => cases y.toModel.unpack <;> rfl
  | infinity s => cases y.toModel.unpack <;> simp [UnpackedFloat.mul, hsign]
  | zero s => cases y.toModel.unpack <;> simp [UnpackedFloat.mul, hsign]
  | finite s m e hpos =>
      cases y.toModel.unpack with
      | finite t n f hpos' =>
          simp only [UnpackedFloat.mul]
          rw [hsign, Nat.mul_comm, Int.add_comm]
      | _ => simp [UnpackedFloat.mul, hsign]

/-- **One is neutral**, for what is no number as for the zero of either sign. -/
protected theorem mul_one (x : Float) : x * 1 = x := by
  have hfits : Fits x.toModel.unpack := fits_unpack _
  rw [mul_eq_ofModel, unpack_one, mul_one_of_fits hfits, ofModel_pack_unpack]

protected theorem one_mul (x : Float) : 1 * x = x := by
  rw [Binary64.mul_comm, Binary64.mul_one]

/-- What compares as equal to one is one. -/
theorem eq_one_of_beq {x : Float} (h : (x == 1) = true) : x = 1 := by
  have hdef : (x == 1) = x.toModel.unpack.beq one := rfl
  refine eq_of_unpack_eq ?_
  rw [hdef] at h
  rw [unpack_one]
  cases hx : x.toModel.unpack with
  | notANumber => simp [hx, one, UnpackedFloat.beq, UnpackedFloat.compare] at h
  | infinity s => cases s <;> simp [hx, one, UnpackedFloat.beq, UnpackedFloat.compare] at h
  | zero s => simp [hx, one, UnpackedFloat.beq, UnpackedFloat.compare] at h
  | finite s m e hpos =>
      cases s with
      | negative => simp [hx, one, UnpackedFloat.beq, UnpackedFloat.compare] at h
      | positive =>
          simp only [hx, one, UnpackedFloat.beq, UnpackedFloat.compare, beq_iff_eq,
            Option.some.injEq, Ordering.then_eq_eq, compare_eq_iff_eq] at h
          obtain ⟨rfl, rfl⟩ := h
          rfl

/-! ## §2  Sizes -/

theorem Fits.abs {u : UnpackedFloat} (h : Fits u) : Fits u.abs := by
  cases h with
  | notANumber => exact .notANumber
  | infinity _ => exact .infinity .positive
  | zero _ => exact .zero .positive
  | small _ m hpos hm => exact .small .positive m hpos hm
  | full _ m e hpos hlow hhigh hleast hmost =>
      exact .full .positive m e hpos hlow hhigh hleast hmost

theorem unpack_abs (x : Float) : x.abs.toModel.unpack = x.toModel.unpack.abs :=
  unpack_pack (fits_unpack _).abs

theorem lt_zero_iff {x : Float} : x < 0 ↔ x.toModel.unpack.lt (.zero .positive) = true :=
  ⟨of_decide_eq_true, decide_eq_true⟩

/-- A number below zero is its size with the sign turned. -/
theorem neg_abs_of_lt {x : Float} (h : x < 0) : -x.abs = x := by
  rw [lt_zero_iff] at h
  refine eq_of_unpack_eq ?_
  rw [unpack_neg, unpack_abs]
  cases hx : x.toModel.unpack with
  | notANumber => rfl
  | zero s => simp [hx, UnpackedFloat.lt, UnpackedFloat.compare] at h
  | infinity s =>
      cases s with
      | negative => rfl
      | positive => simp [hx, UnpackedFloat.lt, UnpackedFloat.compare] at h
  | finite s m e hpos =>
      cases s with
      | negative => rfl
      | positive => simp [hx, UnpackedFloat.lt, UnpackedFloat.compare] at h

/-- A number other than zero that is not below zero is its size. -/
theorem abs_of_not_lt {x : Float} (hzero : (x == 0) = false) (h : ¬ x < 0) : x.abs = x := by
  rw [lt_zero_iff] at h
  refine eq_of_unpack_eq ?_
  rw [unpack_abs]
  cases hx : x.toModel.unpack with
  | notANumber => rfl
  | zero s => exact absurd hx (beq_zero_eq_false.1 hzero s)
  | infinity s =>
      cases s with
      | negative => simp [hx, UnpackedFloat.lt, UnpackedFloat.compare] at h
      | positive => rfl
  | finite s m e hpos =>
      cases s with
      | negative => simp [hx, UnpackedFloat.lt, UnpackedFloat.compare] at h
      | positive => rfl

theorem abs_beq_zero {x : Float} (h : (x == 0) = false) : (x.abs == 0) = false := by
  refine beq_zero_eq_false.2 fun s hzero => ?_
  rw [unpack_abs] at hzero
  cases hx : x.toModel.unpack with
  | zero t => exact beq_zero_eq_false.1 h t hx
  | _ => simp [hx, UnpackedFloat.abs] at hzero

/-! ## §3  Whole numbers -/

/-- The number `n` with its highest bit shifted to the top of the significand. -/
def whole (n : ℕ) (h : 0 < n) : UnpackedFloat :=
  .finite .positive (n * 2 ^ (52 - n.log2)) (n.log2 - 52) (by positivity)

theorem log2_whole {n : ℕ} (h : 0 < n) (hn : n < 2 ^ 53) : (n * 2 ^ (52 - n.log2)).log2 = 52 := by
  have hlog : n.log2 < 53 := (Nat.log2_lt h.ne').2 hn
  rw [log2_mul_two_pow h.ne']
  omega

theorem fits_whole {n : ℕ} (h : 0 < n) (hn : n < 2 ^ 53) : Fits (whole n h) := by
  have hlog : n.log2 < 53 := (Nat.log2_lt h.ne').2 hn
  have hpos : 0 < n * 2 ^ (52 - n.log2) := by positivity
  obtain ⟨hlow, hhigh⟩ := (Nat.log2_eq_iff hpos.ne').1 (log2_whole h hn)
  exact .full _ _ _ _ hlow hhigh (by omega) (by omega)

/-- A whole number of at most 53 bits is not rounded. -/
theorem ofNat_eq_whole {n : ℕ} (h : 0 < n) (hn : n < 2 ^ 53) :
    UnpackedFloat.ofNat Format.binary64 n = whole n h := by
  have hlog : n.log2 < 53 := (Nat.log2_lt h.ne').2 hn
  have hsign : compare (n : ℤ) 0 = .gt := compare_gt_iff_gt.2 (by omega)
  have htarget : Format.binary64.targetExponent (totalExponent n 0) = n.log2 - 52 := by
    have hleast : Format.binary64.minExponent = -1074 := by decide
    have hbits : (Format.binary64.mantissaBits : ℤ) = 53 := rfl
    rw [totalExponent, Format.targetExponent, hbits, hleast]
    omega
  have hshift : (0 - ((n.log2 : ℤ) - 52)).toNat = 52 - n.log2 := by omega
  have hstays : Format.binary64.targetExponent
      (totalExponent (n * 2 ^ (52 - n.log2)) (n.log2 - 52)) = n.log2 - 52 :=
    targetExponent_full (log2_whole h hn) (by omega)
  have hround := roundWithAccuracy_of_target .positive 0 (by positivity) hstays
  rw [pow_zero, mul_one, Nat.cast_zero, sub_zero] at hround
  have hexp : (0 : ℤ) - (52 - n.log2 : ℕ) = n.log2 - 52 := by omega
  rw [UnpackedFloat.ofNat, UnpackedFloat.ofInt, UnpackedFloat.normalize, hsign]
  dsimp only
  rw [UnpackedFloat.round, Int.toNat_natCast, htarget, UnpackedFloat.decreaseExponent, hshift,
    Nat.shiftLeft_eq, hexp]
  exact hround

theorem unpack_toFloat {n : ℕ} (h : 0 < n) (hn : n < 2 ^ 53) :
    n.toUInt64.toFloat.toModel.unpack = whole n h := by
  have hsize : n.toUInt64.toNat = n := UInt64.toNat_ofNat_of_lt (hn.trans (by decide))
  have hconvert : n.toUInt64.toFloat =
      .ofModel (.pack (.ofNat Format.binary64 n.toUInt64.toNat)) := rfl
  rw [hconvert, hsize, ofNat_eq_whole h hn, unpack_ofModel_pack (fits_whole h hn)]

/-- A whole number is converted as a word and then multiplied by one, and neither step rounds it. -/
theorem unpack_ofNat {n : ℕ} (h : 0 < n) (hn : n < 2 ^ 53) :
    (Float.ofNat n).toModel.unpack = whole n h := by
  have hdef : Float.ofNat n = n.toUInt64.toFloat * Float.ofBits 0x3FF0000000000000 :=
    dif_pos ⟨hn, by decide⟩
  have hone : Float.ofBits 0x3FF0000000000000 = 1 := by decide +kernel
  rw [hdef, hone, Binary64.mul_one, unpack_toFloat h hn]

/-- A larger whole number is no smaller as a number. -/
theorem ofNat_le_ofNat {m n : ℕ} (hmn : m ≤ n) (hn : n < 2 ^ 53) :
    Float.ofNat m ≤ Float.ofNat n := by
  rcases Nat.eq_zero_or_pos m with rfl | hm
  · rcases Nat.eq_zero_or_pos n with rfl | hpos
    · decide +kernel
    · have hzero : (Float.ofNat 0).toModel.unpack = .zero .positive := rfl
      refine le_iff.2 ⟨_, by rw [hzero]; rfl, _, by rw [unpack_ofNat hpos hn]; rfl, ?_⟩
      exact Prod.Lex.toLex_le_toLex.2 (.inl Int.zero_lt_one)
  · have hpos : 0 < n := hm.trans_le hmn
    refine le_iff.2 ⟨_, by rw [unpack_ofNat hm (hmn.trans_lt hn)]; rfl, _,
      by rw [unpack_ofNat hpos hn]; rfl, ?_⟩
    refine Prod.Lex.toLex_le_toLex.2 (.inr ⟨rfl, Prod.Lex.toLex_le_toLex.2 ?_⟩)
    have hlog : m.log2 ≤ n.log2 := (Nat.le_log2 hpos.ne').2 ((Nat.log2_self_le hm.ne').trans hmn)
    rcases hlog.lt_or_eq with hlt | heq
    · left
      dsimp only
      omega
    · right
      dsimp only
      rw [heq]
      exact ⟨rfl, Nat.cast_le.2 (Nat.mul_le_mul_right _ hmn)⟩

/-- Cutting off what is behind the point cuts nothing off a whole number. -/
theorem roundToInt_whole {n : ℕ} (h : 0 < n) (hn : n < 2 ^ 53) :
    UnpackedFloat.roundToInt .positive (n * 2 ^ (52 - n.log2)) (n.log2 - 52) = n := by
  have hlog : n.log2 < 53 := (Nat.log2_lt h.ne').2 hn
  have hkeep : ((n.log2 : ℤ) - 52 - 0).toNat = 0 := by omega
  have hshift : (0 - ((n.log2 : ℤ) - 52)).toNat = 52 - n.log2 := by omega
  rw [UnpackedFloat.roundToInt, UnpackedFloat.decreaseExponent, hkeep]
  simp only [Nat.shiftLeft_zero, Nat.cast_zero, sub_zero]
  rw [UnpackedFloat.shiftToExponent, hshift]
  show Sign.positive.apply (((52 - n.log2).repeat ExtendedMantissa.shiftRightOne
    ⟨n * 2 ^ (52 - n.log2), false, false⟩).mantissa : ℤ) = n
  rw [repeat_shiftRightOne]
  rfl

theorem toNat_toUInt64_ofNat {n : ℕ} (hn : n < 2 ^ 53) : (Float.ofNat n).toUInt64.toNat = n := by
  rcases Nat.eq_zero_or_pos n with rfl | hpos
  · decide +kernel
  · have hdef : (Float.ofNat n).toUInt64 = (Float.ofNat n).toModel.unpack.toUInt64 := rfl
    rw [hdef, unpack_ofNat hpos hn, UnpackedFloat.toUInt64, whole, UnpackedFloat.toInt,
      roundToInt_whole hpos hn, Int.toNat_natCast]
    have hsize : n < UInt64.size := hn.trans (by decide)
    rw [UInt64.ofNatClamp, dif_pos hsize]
    rfl

theorem ofNat_zero : Float.ofNat 0 = 0 := rfl

theorem ofNat_one : Float.ofNat 1 = 1 := by
  refine eq_of_unpack_eq ?_
  rw [unpack_ofNat Nat.one_pos (by decide)]
  rfl

theorem ofNat_beq_zero {n : ℕ} (h : 0 < n) (hn : n < 2 ^ 53) : (Float.ofNat n == 0) = false := by
  rw [beq_zero_eq_false, unpack_ofNat h hn]
  intro s hzero
  cases hzero

theorem ofNat_beq_self {n : ℕ} (hn : n < 2 ^ 53) : (Float.ofNat n == Float.ofNat n) = true := by
  rcases Nat.eq_zero_or_pos n with rfl | hpos
  · decide +kernel
  · rw [beq_iff, unpack_ofNat hpos hn]
    exact ⟨_, rfl, rfl⟩

theorem isFinite_ofNat {n : ℕ} (hn : n < 2 ^ 53) : (Float.ofNat n).isFinite = true := by
  have hdef : (Float.ofNat n).isFinite = (Float.ofNat n).toModel.unpack.isFinite := rfl
  rcases Nat.eq_zero_or_pos n with rfl | hpos
  · decide +kernel
  · rw [hdef, unpack_ofNat hpos hn]
    rfl

theorem abs_ofNat {n : ℕ} (hn : n < 2 ^ 53) : (Float.ofNat n).abs = Float.ofNat n := by
  refine eq_of_unpack_eq ?_
  rw [unpack_abs]
  rcases Nat.eq_zero_or_pos n with rfl | hpos
  · rfl
  · rw [unpack_ofNat hpos hn]
    rfl

/-- Whole numbers are whole. -/
theorem isWhole_ofNat {n : ℕ} (hn : n < 2 ^ 53) : isWhole (Float.ofNat n) = true := by
  have hpart : wholePart (Float.ofNat n) = Float.ofNat n := by
    rw [wholePart, abs_ofNat hn, toNat_toUInt64_ofNat hn]
  rw [isWhole, hpart, abs_ofNat hn, isFinite_ofNat hn, ofNat_beq_self hn, Bool.or_true]
  rfl

/-- A whole number is not below a smaller one. -/
theorem not_ofNat_lt_ofNat {m n : ℕ} (hmn : m ≤ n) (hn : n < 2 ^ 53) :
    ¬ Float.ofNat n < Float.ofNat m := by
  intro h
  have hself : Float.ofNat n < Float.ofNat n := lt_of_lt_of_le h (ofNat_le_ofNat hmn hn)
  exact lt_asymm hself hself

/-- A decimal with nothing behind the point is the whole number. -/
theorem ofDecimal_ofNat {n : ℕ} (hn : n < 2 ^ 53) : ofDecimal n 0 = Float.ofNat n := by
  rcases Nat.eq_zero_or_pos n with rfl | hpos
  · rfl
  · have hcount : digitCount n ≤ 16 := by
      by_contra hlong
      have hlow : 10 ^ 16 ≤ n :=
        (Nat.pow_le_pow_right (by decide) (by omega)).trans (pow_digitCount_le hpos)
      omega
    rw [ofDecimal, if_neg hpos.ne']
    dsimp only
    rw [if_neg (by omega), if_neg (by omega)]
    rfl

end Binary64

end InkAlgebra
