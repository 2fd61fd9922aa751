import Mathlib
import InkAlgebra.Proofs.Number.Binary64

/-!
# Binary64 and its bits

Arithmetic takes numbers apart, computes with their parts and puts the result back into bits.
Nothing is lost on the way in either direction, as long as the parts are those that the format has
room for.

§1 is the round trip, §2 is zero in sums, §3 is rounding where there is nothing to round.
-/

namespace InkAlgebra

namespace Binary64

open Float.Model (Format UnpackedFloat totalExponent)
open Float.Model.UnpackedFloat
  (Sign ExtendedMantissa packComponents unpackSign unpackExponent unpackMantissa)

/-! ## §1  Into bits and back -/

/-- What the format has room for: a significand of 53 bits with an exponent in range, or a shorter
one with the least exponent. -/
inductive Fits : UnpackedFloat → Prop
  | notANumber : Fits .notANumber
  | infinity (s : Sign) : Fits (.infinity s)
  | zero (s : Sign) : Fits (.zero s)
  | small (s : Sign) (m : ℕ) (hpos : 0 < m) (hm : m < 2 ^ 52) : Fits (.finite s m (-1074) hpos)
  | full (s : Sign) (m : ℕ) (e : ℤ) (hpos : 0 < m) (hlow : 2 ^ 52 ≤ m) (hhigh : m < 2 ^ 53)
      (hleast : -1074 ≤ e) (hmost : e ≤ 971) : Fits (.finite s m e hpos)

theorem Fits.neg {u : UnpackedFloat} (h : Fits u) : Fits u.neg := by
  cases h with
  | notANumber => exact .notANumber
  | infinity s => exact .infinity (-s)
  | zero s => exact .zero (-s)
  | small s m hpos hm => exact .small (-s) m hpos hm
  | full s m e hpos hlow hhigh hleast hmost => exact .full (-s) m e hpos hlow hhigh hleast hmost

theorem exponentBias_eq : (Format.binary64.exponentBias : ℤ) = 1023 := by decide

theorem sign_ofBitVec_toBitVec (s : Sign) : Sign.ofBitVec s.toBitVec = s := by
  cases s <;> rfl

theorem sign_toBitVec_ofBitVec (b : BitVec 1) : (Sign.ofBitVec b).toBitVec = b := by
  revert b
  decide

theorem unpackSign_packComponents {spec : Format} (s : Sign) (e : BitVec spec.exponentBits)
    (m : BitVec spec.mantissaBitsWithoutImplicit) :
    unpackSign (packComponents spec s e m) = s.toBitVec := by
  refine BitVec.eq_of_getLsbD_eq fun i hi => ?_
  obtain rfl : i = 0 := by omega
  simp [unpackSign, packComponents, BitVec.getLsbD_append, BitVec.getElem_append]

/-- A word is its three fields in a row. -/
theorem packComponents_unpack (b : BitVec Format.binary64.numBits) :
    packComponents Format.binary64 (.ofBitVec (unpackSign b)) (unpackExponent b)
        (unpackMantissa b) = b := by
  rw [packComponents, sign_toBitVec_ofBitVec]
  refine BitVec.eq_of_getLsbD_eq fun i hi => ?_
  simp only [unpackSign, unpackExponent, unpackMantissa, BitVec.extractLsb, BitVec.getLsbD_append,
    BitVec.getLsbD_cast, BitVec.getLsbD_extractLsb']
  grind

/-- The bit that is not stored stands above the stored ones. -/
theorem toNat_one_append {w : ℕ} (m : BitVec w) : (1#1 ++ m).toNat = 2 ^ w + m.toNat := by
  rw [BitVec.toNat_append, ← Nat.shiftLeft_add_eq_or_of_lt m.isLt]
  simp [Nat.shiftLeft_eq]

/-- The exponent field zero stands for the least exponent. -/
theorem exponent_of_zero {b : BitVec Format.binary64.numBits} (h : unpackExponent b = 0#11) :
    ((unpackExponent b).toNat : ℤ) - (Format.binary64.exponentBias + (52 : ℕ)) + 1 = -1074 := by
  rw [h, exponentBias_eq]
  rfl

/-- Without the highest bit a significand goes with the exponent field zero. -/
theorem pack_small (s : Sign) {m : ℕ} (hpos : 0 < m) (hm : m < 2 ^ 52) :
    UnpackedFloat.pack Format.binary64 (.finite s m (-1074) hpos) =
      packComponents Format.binary64 s 0#11 (.ofNat 52 m) := by
  have hlog : m.log2 < 52 := (Nat.log2_lt hpos.ne').2 hm
  have hbits : ¬ m.log2 + 1 = Format.binary64.mantissaBits := by
    show ¬ m.log2 + 1 = 53
    omega
  unfold UnpackedFloat.pack
  dsimp only
  rw [if_neg (by decide), if_neg hbits]

/-- With the highest bit the bit itself is left out. -/
theorem pack_full (s : Sign) {m n : ℕ} (hpos : 0 < m) (hlow : 2 ^ 52 ≤ m) (hhigh : m < 2 ^ 53)
    (hn : n < 2047) :
    UnpackedFloat.pack Format.binary64 (.finite s m (n - 1075) hpos) =
      packComponents Format.binary64 s (.ofNat 11 n) (.ofNat 52 m) := by
  have hlog : m.log2 = 52 := (Nat.log2_eq_iff hpos.ne').2 ⟨hlow, hhigh⟩
  have hbits : m.log2 + 1 = Format.binary64.mantissaBits := by
    rw [hlog]
    rfl
  have hexp : ((n : ℤ) - 1075 + Format.binary64.exponentBias + (52 : ℕ)).toNat = n := by
    rw [exponentBias_eq]
    omega
  unfold UnpackedFloat.pack
  dsimp only
  rw [hexp, if_neg (by omega), if_pos hbits]

/-- What is read from bits fits. -/
theorem fits_unpack (b : BitVec Format.binary64.numBits) : Fits (.unpack Format.binary64 b) := by
  have hexp : (unpackExponent b).toNat < 2 ^ 11 := (unpackExponent b).isLt
  have hman : (unpackMantissa b).toNat < 2 ^ 52 := (unpackMantissa b).isLt
  have hbias := exponentBias_eq
  unfold UnpackedFloat.unpack
  dsimp only
  split
  · split
    · exact .infinity _
    · exact .notANumber
  · rename_i hsat
    have hne : (unpackExponent b).toNat ≠ 2 ^ 11 - 1 := fun h => hsat (BitVec.eq_of_toNat_eq h)
    split
    · rename_i hzero
      split
      · exact .zero _
      · rw [exponent_of_zero hzero]
        exact .small _ _ _ hman
    · rename_i hzero
      have hpos : (unpackExponent b).toNat ≠ 0 := fun h => hzero (BitVec.eq_of_toNat_eq h)
      have hfull : (1#1 ++ unpackMantissa b).toNat = 2 ^ 52 + (unpackMantissa b).toNat :=
        toNat_one_append _
      exact .full _ _ _ _ (by omega) (by omega) (by omega) (by omega)

/-- A number that fits is read back as it was written. -/
theorem unpack_pack {u : UnpackedFloat} (h : Fits u) :
    UnpackedFloat.unpack Format.binary64 (UnpackedFloat.pack Format.binary64 u) = u := by
  cases h with
  | notANumber => rfl
  | infinity s => cases s <;> rfl
  | zero s => cases s <;> rfl
  | small s m hpos hm =>
    have hman : (BitVec.ofNat 52 m).toNat = m := by
      rw [BitVec.toNat_ofNat, Nat.mod_eq_of_lt hm]
    have hne : BitVec.ofNat 52 m ≠ 0#52 := by
      intro h
      rw [h] at hman
      exact hpos.ne hman
    rw [pack_small s hpos hm, UnpackedFloat.unpack]
    simp only [Float.Model.UnpackedFloat.unpackExponent_packComponents,
      Float.Model.UnpackedFloat.unpackMantissa_packComponents, unpackSign_packComponents,
        sign_ofBitVec_toBitVec]
    rw [if_neg (by decide), if_pos trivial, dif_neg hne]
    congr 1
  | full s m e hpos hlow hhigh hleast hmost =>
    obtain ⟨n, rfl⟩ : ∃ n : ℕ, e = n - 1075 := ⟨(e + 1075).toNat, by omega⟩
    have hexp : (BitVec.ofNat 11 n).toNat = n := by
      rw [BitVec.toNat_ofNat, Nat.mod_eq_of_lt (by omega)]
    have hsat : BitVec.ofNat 11 n ≠ -1#11 := by
      intro h
      rw [h] at hexp
      have : n = 2047 := hexp.symm
      omega
    have hzero : BitVec.ofNat 11 n ≠ 0#11 := by
      intro h
      rw [h] at hexp
      have : n = 0 := hexp.symm
      omega
    have hman : (1#1 ++ BitVec.ofNat 52 m).toNat = m := by
      rw [toNat_one_append, BitVec.toNat_ofNat]
      omega
    rw [pack_full s hpos hlow hhigh (by omega), UnpackedFloat.unpack]
    simp only [Float.Model.UnpackedFloat.unpackExponent_packComponents,
      Float.Model.UnpackedFloat.unpackMantissa_packComponents, unpackSign_packComponents,
        sign_ofBitVec_toBitVec]
    rw [if_neg hsat, if_neg hzero]
    simp only [hman, hexp, exponentBias_eq]
    congr 1

/-- Bits are written back as they were read: what is no number has one pattern only. -/
theorem pack_unpack {b : BitVec Format.binary64.numBits} (h : Format.binary64.Valid b) :
    UnpackedFloat.pack Format.binary64 (.unpack Format.binary64 b) = b := by
  have hexp : (unpackExponent b).toNat < 2 ^ 11 := (unpackExponent b).isLt
  have hman : (unpackMantissa b).toNat < 2 ^ 52 := (unpackMantissa b).isLt
  have hbias := exponentBias_eq
  have hsplit := packComponents_unpack b
  unfold UnpackedFloat.unpack
  dsimp only
  split
  · rename_i hsat
    split
    · rename_i hzero
      rw [hsat, hzero] at hsplit
      exact hsplit
    · rename_i hzero
      exact (h.eq_packedNaN hsat hzero).symm
  · rename_i hsat
    have hne : (unpackExponent b).toNat ≠ 2 ^ 11 - 1 := fun h => hsat (BitVec.eq_of_toNat_eq h)
    split
    · rename_i hzero
      split
      · rename_i hmzero
        rw [hzero, hmzero] at hsplit
        exact hsplit
      · simp only [exponent_of_zero hzero]
        rw [pack_small _ _ hman, BitVec.ofNat_toNat, ← hzero]
        exact hsplit
    · rename_i hzero
      have hfull : (1#1 ++ unpackMantissa b).toNat = 2 ^ 52 + (unpackMantissa b).toNat :=
        toNat_one_append _
      have hbiased : ((unpackExponent b).toNat : ℤ) - (Format.binary64.exponentBias + (52 : ℕ)) =
          (unpackExponent b).toNat - 1075 := by
        rw [hbias]
        omega
      have hlow : BitVec.ofNat 52 (1#1 ++ unpackMantissa b).toNat = unpackMantissa b := by
        refine BitVec.eq_of_toNat_eq ?_
        rw [hfull, BitVec.toNat_ofNat]
        omega
      simp only [hbiased]
      rw [pack_full _ _ (by omega) (by omega) (by omega), hlow, BitVec.ofNat_toNat]
      exact hsplit

/-! ## §2  Zero in sums -/

theorem unpack_ofModel_pack {u : UnpackedFloat} (h : Fits u) :
    (Float.ofModel (.pack u)).toModel.unpack = u :=
  unpack_pack h

theorem ofModel_pack_unpack (x : Float) : Float.ofModel (.pack x.toModel.unpack) = x := by
  obtain ⟨⟨bits, hvalid⟩⟩ := x
  have hbits := congrArg UInt64.ofBitVec (pack_unpack hvalid)
  exact congrArg Float.ofModel (Float.Model.mk.injEq .. ▸ hbits)

/-- Numbers with the same parts are the same. -/
theorem eq_of_unpack_eq {x y : Float} (h : x.toModel.unpack = y.toModel.unpack) : x = y := by
  rw [← ofModel_pack_unpack x, h, ofModel_pack_unpack]

theorem unpack_neg (x : Float) : (-x).toModel.unpack = x.toModel.unpack.neg :=
  unpack_pack (fits_unpack _).neg

/-- A number equals zero only if it is a zero of either sign. -/
theorem beq_zero_eq_false {x : Float} : (x == 0) = false ↔ ∀ s, x.toModel.unpack ≠ .zero s := by
  have hdef : (x == 0) = x.toModel.unpack.beq (.zero .positive) := rfl
  rw [hdef]
  cases x.toModel.unpack with
  | zero s => exact iff_of_false Bool.noConfusion fun h => h s rfl
  | notANumber => simp [UnpackedFloat.beq, UnpackedFloat.compare]
  | infinity s => cases s <;> simp [UnpackedFloat.beq, UnpackedFloat.compare]
  | finite s m e hpos => cases s <;> simp [UnpackedFloat.beq, UnpackedFloat.compare]

/-- Zero adds nothing to a number that is not zero itself. -/
theorem zero_add_of_beq_zero {x : Float} (h : (x == 0) = false) : 0 + x = x := by
  have hdef : 0 + x =
      .ofModel (.pack (UnpackedFloat.add Format.binary64 (.zero .positive) x.toModel.unpack)) := rfl
  have hsum : UnpackedFloat.add Format.binary64 (.zero .positive) x.toModel.unpack =
      x.toModel.unpack := by
    have hne := beq_zero_eq_false.1 h
    cases hx : x.toModel.unpack with
    | zero s => exact absurd hx (hne s)
    | notANumber => rfl
    | infinity s => rfl
    | finite s m e hpos => rfl
  rw [hdef, hsum, ofModel_pack_unpack]

/-- The opposite of a number that is not zero is not zero. -/
theorem neg_beq_zero {x : Float} (h : (x == 0) = false) : (-x == 0) = false := by
  have hne := beq_zero_eq_false.1 h
  refine beq_zero_eq_false.2 fun s hzero => ?_
  rw [unpack_neg] at hzero
  cases hx : x.toModel.unpack with
  | zero t => exact hne t hx
  | notANumber => simp [hx, UnpackedFloat.neg] at hzero
  | infinity t => simp [hx, UnpackedFloat.neg] at hzero
  | finite t m e hpos => simp [hx, UnpackedFloat.neg] at hzero

/-! ## §3  Rounding -/

/-- Zero bits are shifted out without a trace. -/
theorem repeat_shiftRightOne (m k : ℕ) :
    k.repeat ExtendedMantissa.shiftRightOne ⟨m * 2 ^ k, false, false⟩ = ⟨m, false, false⟩ := by
  induction k generalizing m with
  | zero => rw [pow_zero, mul_one, Nat.repeat]
  | succ k ih =>
    have hsplit : m * 2 ^ (k + 1) = m * 2 * 2 ^ k := by ring
    rw [Nat.repeat, hsplit, ih]
    simp [ExtendedMantissa.shiftRightOne]

theorem log2_mul_two_pow {m : ℕ} (hm : m ≠ 0) (k : ℕ) : (m * 2 ^ k).log2 = m.log2 + k := by
  have hpos : m * 2 ^ k ≠ 0 := Nat.mul_ne_zero hm (by positivity)
  refine (Nat.log2_eq_iff hpos).2 ⟨?_, ?_⟩
  · rw [pow_add]
    exact Nat.mul_le_mul_right _ (Nat.log2_self_le hm)
  · rw [Nat.add_right_comm, pow_add]
    exact Nat.mul_lt_mul_of_pos_right Nat.lt_log2_self (by positivity)

/-- Zero bits below a significand do not move its highest bit. -/
theorem totalExponent_mul_two_pow {m : ℕ} (hm : m ≠ 0) (e : ℤ) (k : ℕ) :
    totalExponent (m * 2 ^ k) (e - k) = totalExponent m e := by
  rw [totalExponent, totalExponent, log2_mul_two_pow hm]
  omega

/-- The format leaves a significand of 53 bits where it is. -/
theorem targetExponent_full {m : ℕ} {e : ℤ} (hlog : m.log2 = 52) (hleast : -1074 ≤ e) :
    Format.binary64.targetExponent (totalExponent m e) = e := by
  have hleast' : Format.binary64.minExponent = -1074 := by decide
  have hbits : (Format.binary64.mantissaBits : ℤ) = 53 := rfl
  rw [totalExponent, hlog, Format.targetExponent, hbits, hleast']
  omega

/-- A shorter one goes with the least exponent. -/
theorem targetExponent_small {m : ℕ} (hpos : 0 < m) (hm : m < 2 ^ 52) :
    Format.binary64.targetExponent (totalExponent m (-1074)) = -1074 := by
  have hlog : m.log2 < 52 := (Nat.log2_lt hpos.ne').2 hm
  have hleast : Format.binary64.minExponent = -1074 := by decide
  have hbits : (Format.binary64.mantissaBits : ℤ) = 53 := rfl
  rw [totalExponent, Format.targetExponent, hbits, hleast]
  omega

/-- A significand that stands where the format puts it is found there again, whatever zero bits
stand below it. -/
theorem shiftToTargetExponent_of_target {m : ℕ} {e : ℤ} (k : ℕ) (hm : m ≠ 0)
    (htarget : Format.binary64.targetExponent (totalExponent m e) = e) :
    UnpackedFloat.shiftToTargetExponent Format.binary64 (m * 2 ^ k) (e - k) .exact =
        (⟨m, false, false⟩, e) := by
  have hamount : (e - (e - k)).toNat = k := by omega
  rw [UnpackedFloat.shiftToTargetExponent, totalExponent_mul_two_pow hm, htarget,
    UnpackedFloat.shiftToExponent, hamount]
  refine Prod.ext ?_ (by omega)
  exact repeat_shiftRightOne m k

/-- Rounding changes nothing where all bits below those that the format has room for are zero. -/
theorem roundWithAccuracy_of_target (s : Sign) {m : ℕ} {e : ℤ} (k : ℕ) (hpos : 0 < m)
    (htarget : Format.binary64.targetExponent (totalExponent m e) = e) :
    UnpackedFloat.roundWithAccuracy Format.binary64 s (m * 2 ^ k) (e - k) .exact =
        .finite s m e hpos := by
  have hshift := shiftToTargetExponent_of_target k hpos.ne' htarget
  have hagain := shiftToTargetExponent_of_target 0 hpos.ne' htarget
  rw [pow_zero, mul_one, Nat.cast_zero, sub_zero] at hagain
  have hround : ExtendedMantissa.roundedMantissa ⟨m, false, false⟩ = m := rfl
  rw [UnpackedFloat.roundWithAccuracy, hshift]
  dsimp only
  rw [hround, hagain]
  exact dif_neg hpos.ne'

end Binary64

end InkAlgebra
