import Mathlib
import InkAlgebra.Proofs.Number.Magnitude

/-!
# Decades

A number between zero and one has no negative number of decades, also where its logarithm is so near
to a half that the library is asked for it: the library only decides between two neighbours. It has
no more than 324 of them, since there is a least number. Of infinity alone the count is the least
word.

The power of ten with so many zeros is at least one, rounded as it is: what is at least one stays so
when it is multiplied by such a number. From `10 ^ 309` on it is infinite.

§1 is leading places, §2 decades, §3 powers of ten.
-/

namespace InkAlgebra

/-! ## §1  Leading places -/

theorem digitCount_mono {m n : ℕ} (h : m ≤ n) : digitCount m ≤ digitCount n := by
  rcases Nat.eq_zero_or_pos m with rfl | hpos
  · have hone : digitCount 0 = 1 := by rw [digitCount, if_pos (by decide)]
    rw [hone]
    exact digitCount_pos n
  · have hlow := pow_digitCount_le hpos
    have hhigh := lt_pow_digitCount n
    have hpow : 10 ^ (digitCount m - 1) < 10 ^ digitCount n := (hlow.trans h).trans_lt hhigh
    have hless := (Nat.pow_lt_pow_iff_right (by decide)).1 hpow
    omega

/-- A quotient of at least one starts at the point or in front of it. -/
theorem leadingPlace_nonneg {numerator denominator : ℕ} (h : denominator ≤ numerator) :
    0 ≤ leadingPlace numerator denominator := by
  have hcount := digitCount_mono h
  unfold leadingPlace
  dsimp only
  split
  · omega
  · rename_i hreaches
    -- of two numbers with as many digits the quotient reaches the place before the point
    have hne : digitCount numerator ≠ digitCount denominator := by
      intro heq
      refine hreaches (decide_eq_true ?_)
      rw [heq, sub_self]
      exact Nat.mul_le_mul_right _ h
    omega

theorem digitCount_le {n k : ℕ} (hn : 0 < n) (h : n < 10 ^ k) : digitCount n ≤ k := by
  have hless := (Nat.pow_lt_pow_iff_right (by decide)).1 ((pow_digitCount_le hn).trans_lt h)
  omega

theorem neg_le_leadingPlace {numerator denominator k : ℕ} (hdenominator : 0 < denominator)
    (h : denominator < 10 ^ k) : -(k : ℤ) ≤ leadingPlace numerator denominator := by
  have hcount := digitCount_le hdenominator h
  have hpos := digitCount_pos numerator
  unfold leadingPlace
  dsimp only
  split <;> omega

theorem leadingPlace_lt {numerator denominator k : ℕ} (hnumerator : 0 < numerator)
    (hdenominator : 0 < denominator) (h : numerator < 10 ^ k) :
    leadingPlace numerator denominator < k := by
  by_contra hreaches
  have hplace : k ≤ (leadingPlace numerator denominator).toNat := by omega
  have hnone : (-leadingPlace numerator denominator).toNat = 0 := by omega
  have hlow := mul_pow_leadingPlace_le hnumerator denominator
  rw [hnone, pow_zero, mul_one] at hlow
  refine absurd (hlow.trans_lt h) (not_lt_of_ge ?_)
  exact (Nat.pow_le_pow_right (by decide) hplace).trans (Nat.le_mul_of_pos_left _ hdenominator)

/-! ## §2  Decades -/

namespace Binary64

open Float.Model (Format UnpackedFloat)
open Float.Model.UnpackedFloat (Sign unpackSign unpackExponent unpackMantissa)

variable {m n : ℕ} {e f : ℤ} {s : Sign} {hm : 0 < m}

/-- The significand and the exponent of a finite number are read off its bits. -/
theorem parts_of_unpack {x : Float} (hx : x.toModel.unpack = .finite s m e hm) :
    mantissa x = m ∧ exponent x = e := by
  have hfraction := toNat_unpackMantissa x
  have hfield := toNat_unpackExponent x
  have hbias := exponentBias_eq
  unfold Float.Model.unpack UnpackedFloat.unpack at hx
  dsimp only at hx
  split at hx
  · split at hx <;> cases hx
  split at hx
  · rename_i hzero
    split at hx
    · cases hx
    · have hnone : exponentField x = 0 := by
        rw [← hfield, hzero]
        rfl
      obtain ⟨-, rfl, rfl⟩ := UnpackedFloat.finite.inj hx
      rw [mantissa, exponent, if_pos hnone, if_pos hnone, hfraction]
      exact ⟨rfl, (exponent_of_zero hzero).symm⟩
  · rename_i hzero
    have hsome : exponentField x ≠ 0 := by
      intro hnone
      rw [hnone] at hfield
      exact hzero (BitVec.eq_of_toNat_eq hfield)
    obtain ⟨-, rfl, rfl⟩ := UnpackedFloat.finite.inj hx
    rw [mantissa, exponent, if_neg hsome, if_neg hsome, toNat_one_append,
      ← hfield, ← hfraction, hbias]
    refine ⟨Nat.add_comm _ _, ?_⟩
    show _ = (_ : ℤ) - (1023 + (52 : ℕ))
    omega

/-- What is above zero is a number of its size, or infinite. -/
theorem exists_unpack_of_pos {x : Float} (h : 0 < x) :
    x.toModel.unpack = .infinity .positive ∨
      ∃ m e hm, x.toModel.unpack = .finite .positive m e hm := by
  have hlt : UnpackedFloat.lt (.zero .positive) x.toModel.unpack = true := of_decide_eq_true h
  cases hx : x.toModel.unpack with
  | notANumber => simp [hx, UnpackedFloat.lt, UnpackedFloat.compare] at hlt
  | zero s => simp [hx, UnpackedFloat.lt, UnpackedFloat.compare] at hlt
  | infinity s =>
      cases s with
      | negative => simp [hx, UnpackedFloat.lt, UnpackedFloat.compare] at hlt
      | positive => exact .inl rfl
  | finite s m e hm =>
      cases s with
      | negative => simp [hx, UnpackedFloat.lt, UnpackedFloat.compare] at hlt
      | positive => exact .inr ⟨m, e, hm, rfl⟩

/-- Below one a significand has fewer bits than its exponent takes away. -/
theorem exists_unpack_of_lt_one {x : Float} (hpos : 0 < x) (hone : x < 1) :
    ∃ m e hm, x.toModel.unpack = .finite .positive m e hm ∧ e < 0 ∧ m < 2 ^ (-e).toNat := by
  obtain ⟨a, ha, b, hb, hless⟩ := lt_iff.1 hone
  rw [unpack_one] at hb
  obtain rfl := Option.some.inj hb
  rcases exists_unpack_of_pos hpos with hx | ⟨m, e, hm, hx⟩
  · rw [hx] at ha
    obtain rfl := Option.some.inj ha
    exact absurd hless (by decide)
  · have hfits : Fits (.finite .positive m e hm) := hx ▸ fits_unpack _
    rw [hx] at ha
    obtain rfl := Option.some.inj ha
    refine ⟨m, e, hm, hx, ?_⟩
    have hparts := (Prod.Lex.toLex_lt_toLex.1 hless).resolve_left (lt_irrefl _)
    rcases Prod.Lex.toLex_lt_toLex.1 hparts.2 with hexp | ⟨hexp, hsignificand⟩
    · change e < -52 at hexp
      exact ⟨by omega, hfits.lt.trans_le (Nat.pow_le_pow_right (by decide) (by omega))⟩
    · change e = -52 at hexp
      change (m : ℤ) < (2 ^ 52 : ℕ) at hsignificand
      subst hexp
      exact ⟨by decide, by exact_mod_cast hsignificand⟩

theorem nearestDecade_bounds {n d : ℕ} (low high : ℤ)
    (hlow : 2 * low ≤ leadingPlace (d * d) (n * n))
    (hhigh : leadingPlace (d * d) (n * n) ≤ 2 * high) :
    low ≤ (nearestDecade n d).1 ∧ (nearestDecade n d).1 ≤ high := by
  have hhalf : ∀ place : ℤ, 2 * low ≤ place → place ≤ 2 * high + 1 →
      low ≤ place.fdiv 2 ∧ place.fdiv 2 ≤ high := by
    intro place hlow hhigh
    rw [Int.fdiv_eq_ediv_of_nonneg _ (by decide)]
    constructor <;> omega
  rw [nearestDecade]
  exact iteInduction (motive := fun r : ℤ × Bool => low ≤ r.1 ∧ r.1 ≤ high)
    (fun _ => hhalf _ hlow (by omega)) (fun _ => hhalf _ (by omega) (by omega))

/-- The square of the largest denominator has 647 digits. -/
theorem two_pow_mul_self_lt {k : ℕ} (h : k ≤ 1074) : 2 ^ k * 2 ^ k < 10 ^ (2 * 323 + 1) := by
  have hdouble : k + k ≤ 93 * 23 + 9 := by omega
  calc 2 ^ k * 2 ^ k = 2 ^ (k + k) := (pow_add _ _ _).symm
    _ ≤ 2 ^ (93 * 23 + 9) := pow_le_pow_right₀ one_le_two hdouble
    _ = (2 ^ 93) ^ 23 * 2 ^ 9 := by rw [pow_add, pow_mul]
    _ ≤ (10 ^ 28) ^ 23 * 2 ^ 9 := Nat.mul_le_mul_right _ (Nat.pow_le_pow_left (by decide) 23)
    _ < (10 ^ 28) ^ 23 * 10 ^ 3 := Nat.mul_lt_mul_of_pos_left (by decide) (by positivity)
    _ = 10 ^ (2 * 323 + 1) := by rw [← pow_mul, ← pow_add]

/-- The count of decades is the one that the quotient has, or one more. -/
theorem exists_decades {x : Float} (hx : x.toModel.unpack = .finite .positive m e hm) :
    ∃ n, decades x = Int32.ofInt n ∧ (nearestDecade (numerator x) (denominator x)).1 ≤ n ∧
      n ≤ (nearestDecade (numerator x) (denominator x)).1 + 1 := by
  have hzero : (x == 0) = false := beq_zero_eq_false.2 fun s h => by
    rw [hx] at h
    cases h
  have hlt : UnpackedFloat.lt (.zero .positive) x.toModel.unpack = true := by
    rw [hx]
    rfl
  have hpos : 0 < x := decide_eq_true hlt
  have hfinite : x.isInf = false := by
    show x.toModel.unpack.isInf = false
    rw [hx]
    rfl
  rw [decades, hzero, if_neg Bool.false_ne_true, if_pos hpos, hfinite, if_neg Bool.false_ne_true]
  rcases nearestDecade (numerator x) (denominator x) with ⟨n, near⟩
  cases near with
  | false => exact ⟨n, rfl, le_rfl, Int.le_add_one le_rfl⟩
  | true =>
      dsimp only
      split
      · exact ⟨n, rfl, le_rfl, Int.le_add_one le_rfl⟩
      · exact ⟨n + 1, rfl, Int.le_add_one le_rfl, le_rfl⟩

/-- **Decades.** A number between zero and one has none below zero, and no more than the least
number. -/
theorem decades_bounds {x : Float} (hpos : 0 < x) (hone : x < 1) :
    0 ≤ (decades x).toInt ∧ (decades x).toInt ≤ 324 := by
  obtain ⟨m, e, hm, hx, he, hbelow⟩ := exists_unpack_of_lt_one hpos hone
  have hfits : Fits (.finite .positive m e hm) := hx ▸ fits_unpack _
  obtain ⟨hmantissa, hexponent⟩ := parts_of_unpack hx
  have hnumerator : numerator x = m := by
    rw [numerator, hmantissa, hexponent, Int.toNat_of_nonpos he.le]
    exact Nat.mul_one m
  have hdenominator : denominator x = 2 ^ (-e).toNat := by
    rw [denominator, hexponent]
    rfl
  obtain ⟨n, hn, hlow, hhigh⟩ := exists_decades hx
  rw [hnumerator, hdenominator] at hlow hhigh
  have hleast := hfits.log2_or_least.1
  have hplace :=
    leadingPlace_lt (Nat.mul_pos (Nat.two_pow_pos _) (Nat.two_pow_pos _)) (Nat.mul_pos hm hm)
    (two_pow_mul_self_lt (by omega : (-e).toNat ≤ 1074))
  have hbounds :=
    nearestDecade_bounds 0 323 (leadingPlace_nonneg (Nat.mul_le_mul hbelow.le hbelow.le)) (by omega)
  rw [hn, Int32.toInt_ofInt_of_le (by omega) (by omega)]
  omega

theorem numerator_bounds {x : Float} (hx : x.toModel.unpack = .finite s m e hm) :
    0 < numerator x ∧ numerator x * numerator x < 10 ^ (2 * 323 + 1) := by
  have hfits : Fits (.finite s m e hm) := hx ▸ fits_unpack _
  obtain ⟨hmantissa, hexponent⟩ := parts_of_unpack hx
  have hmost : 53 + e.toNat ≤ 1074 := by
    cases hfits with
    | small => decide
    | full => omega
  have hle : numerator x ≤ 2 ^ (53 + e.toNat) := by
    rw [numerator, hmantissa, hexponent, pow_add]
    exact Nat.mul_le_mul_right _ hfits.lt.le
  refine ⟨?_, (Nat.mul_le_mul hle hle).trans_lt (two_pow_mul_self_lt hmost)⟩
  rw [numerator, hmantissa]
  exact Nat.mul_pos hm (Nat.two_pow_pos _)

theorem denominator_bounds {x : Float} (hx : x.toModel.unpack = .finite s m e hm) :
    0 < denominator x ∧ denominator x * denominator x < 10 ^ (2 * 323 + 1) := by
  have hfits : Fits (.finite s m e hm) := hx ▸ fits_unpack _
  obtain ⟨_, hexponent⟩ := parts_of_unpack hx
  have hleast := hfits.log2_or_least.1
  rw [denominator, hexponent]
  exact ⟨Nat.two_pow_pos _, two_pow_mul_self_lt (by omega)⟩

/-- **The least word** is the count of infinity, and of no other number. -/
theorem decades_eq_minValue_iff (x : Float) :
    decades x = Int32.minValue ↔ 0 < x ∧ x.isInf = true := by
  constructor
  · intro h
    by_cases hpos : 0 < x
    · rcases exists_unpack_of_pos hpos with hx | ⟨m, e, hm, hx⟩
      · refine ⟨hpos, ?_⟩
        show x.toModel.unpack.isInf = true
        rw [hx]
        rfl
      · obtain ⟨hnpos, hnumerator⟩ := numerator_bounds hx
        obtain ⟨hdpos, hdenominator⟩ := denominator_bounds hx
        have hlow : -((2 * 323 + 1 : ℕ) : ℤ) ≤
            leadingPlace (denominator x * denominator x) (numerator x * numerator x) :=
          neg_le_leadingPlace (Nat.mul_pos hnpos hnpos) hnumerator
        have hhigh := leadingPlace_lt (Nat.mul_pos hdpos hdpos)
            (Nat.mul_pos hnpos hnpos) hdenominator
        clear hnumerator hdenominator
        obtain ⟨hleast, hmost⟩ :=
          nearestDecade_bounds (-324) 323 (hlow.trans' (by decide)) (by omega)
        obtain ⟨n, hdecades, hbelow, habove⟩ := exists_decades hx
        have hvalue : n = Int32.minValue.toInt := by
          rw [← h, hdecades, Int32.toInt_ofInt_of_le (by omega) (by omega)]
        rw [show Int32.minValue.toInt = -2147483648 from rfl] at hvalue
        omega
    · rw [decades, if_neg hpos] at h
      split at h <;> exact absurd h (by decide)
  · rintro ⟨hpos, hinfinite⟩
    have hzero : (x == 0) = false := beq_zero_eq_false.2 fun s h => by
      have hfalse : x.toModel.unpack.isInf = true := hinfinite
      rw [h] at hfalse
      cases hfalse
    rw [decades, hzero, if_neg Bool.false_ne_true, if_pos hpos, if_pos hinfinite]

/-! ## §3  Powers of ten -/

/-- Whether a number is one or more, up to infinity. -/
def AtLeastOne (x : Float) : Prop :=
  x.toModel.unpack = .infinity .positive ∨
    ∃ m e hm, x.toModel.unpack = .finite .positive m e hm ∧ 1 ≤ (m * 2 ^ e : ℚ)

theorem atLeastOne_ofNat {n : ℕ} (h : 0 < n) (hn : n < 2 ^ 53) : AtLeastOne (Float.ofNat n) := by
  refine .inr ⟨_, _, _, unpack_ofNat h hn, ?_⟩
  show 1 ≤ size (whole n h)
  rw [size_whole h hn]
  exact_mod_cast h

theorem AtLeastOne.mul {x y : Float} (hx : AtLeastOne x) (hy : AtLeastOne y) :
    AtLeastOne (x * y) := by
  rw [AtLeastOne, mul_eq_ofModel]
  rcases hx with hx | ⟨m, e, hm, hx, hxone⟩
  · left
    rcases hy with hy | ⟨n, f, hn, hy, -⟩
    · rw [hx, hy]
      exact unpack_ofModel_pack (.infinity .positive)
    · rw [hx, hy]
      exact unpack_ofModel_pack (.infinity .positive)
  rcases hy with hy | ⟨n, f, hn, hy, hyone⟩
  · left
    rw [hx, hy]
    exact unpack_ofModel_pack (.infinity .positive)
  have hfitsx : Fits (.finite .positive m e hm) := hx ▸ fits_unpack _
  have hfitsy : Fits (.finite .positive n f hn) := hy ▸ fits_unpack _
  have hnearest := nearest_mul hfitsx hfitsy
  have hproduct : 1 ≤ size (UnpackedFloat.mul Format.binary64 (.finite .positive m e hm)
      (.finite .positive n f hn)) := by
    have hexact : ((1 : ℕ) : ℚ) * 2 ^ (0 : ℤ) ≤ m * 2 ^ e * (n * 2 ^ f) := by
      rw [Nat.cast_one, zpow_zero, one_mul]
      exact one_le_mul_of_one_le_of_one_le hxone hyone
    simpa using hnearest.le_size (by decide) (by decide) hexact
  rw [hx, hy]
  rcases hnearest.rounded.unpack_pack_positive (roundWithAccuracy_cases _ _ _ _)
      (one_pos.trans_le hproduct) with
    hinfinite | ⟨k, g, hk, hfinite, hsize⟩
  · exact .inl hinfinite
  · exact .inr ⟨k, g, hk, hfinite, hsize ▸ hproduct⟩

end Binary64

/-- What products keep, square and multiply keeps. -/
theorem raise_induction {β : Type} {times : β → β → β} (holds : β → Prop)
    (hmul : ∀ a b, holds a → holds b → holds (times a b)) (n : ℕ) {a b : β} (ha : holds a)
    (hb : holds b) :
    holds (Scalar.raise times a b n) := by
  fun_induction Scalar.raise times a b n with
  | case1 a b => exact ha
  | case2 a b n hn accumulated hlast => exact iteInduction (fun _ => hmul a b ha hb) fun _ => ha
  | case3 a b n hn accumulated hlast ih =>
      exact ih (iteInduction (fun _ => hmul a b ha hb) fun _ => ha) (hmul b b hb hb)

namespace Binary64

theorem atLeastOne_tenPower {n : Int32} (h : 0 ≤ n.toInt) :
    AtLeastOne (Coefficient.tenPower n) := by
  have hneg : ¬ n < 0 := fun hn => (Int32.lt_iff_toInt_lt.1 hn).not_ge h
  have hone : AtLeastOne 1 := ofNat_one ▸ atLeastOne_ofNat Nat.one_pos (by decide)
  have hten : AtLeastOne (Scalar.ofNat 10) := atLeastOne_ofNat (by decide) (by decide)
  unfold Coefficient.tenPower
  dsimp only
  rw [if_neg hneg]
  exact raise_induction AtLeastOne (fun _ _ => AtLeastOne.mul) _ hone hten

/-- From here on powers of ten have no room. -/
theorem isFinite_raise_ten :
    ∀ k < 15, (Scalar.raise (· * ·) (1 : Float) (Scalar.ofNat 10) (k + 309)).isFinite = false := by
  decide +kernel

theorem isFinite_tenPower_eq_false {n : Int32} (hlow : 308 < n.toInt) (hhigh : n.toInt ≤ 323) :
    (Coefficient.tenPower n : Float).isFinite = false := by
  have hneg : ¬ n < 0 := fun hn => by
    have : n.toInt < 0 := Int32.lt_iff_toInt_lt.1 hn
    omega
  obtain ⟨k, hk⟩ : ∃ k, n.toInt.natAbs = k + 309 := ⟨n.toInt.natAbs - 309, by omega⟩
  rw [Coefficient.tenPower, hk, if_neg hneg]
  exact isFinite_raise_ten k (by omega)

end Binary64

end InkAlgebra
