import Mathlib
import InkAlgebra.Proofs.Number.Decades

/-!
# Rounding to decimal places

A number is rounded to decimal places by a detour: it is multiplied by a power of ten, rounded to a
whole number and divided by the power again. The last two steps cannot leave the range of finite
numbers, since the power is at least one, and neither can they come back to it: what is infinite or
no number stays so. Hence all depends on the first step, whether there is room for the product.

Rounding to tens is the one case with a power below one. Its product is never too large, and the
quotient is not either, but by less than a unit of the last place of the largest number.

§1 is finite numbers, §2 whole numbers, §3 quotients, §4 places.
-/

namespace InkAlgebra

namespace Binary64

open Float.Model (Format UnpackedFloat)
open Float.Model.UnpackedFloat (Sign)

variable {z : ℚ} {u v : UnpackedFloat} {m n : ℕ} {e f : ℤ} {s t : Sign} {hm : 0 < m} {hn : 0 < n}

/-! ## §1  Finite numbers -/

/-- Half a unit above the largest number: from here on sizes are rounded to infinity. -/
def overflow : ℚ := (2 ^ 53 - 1 / 2) * 2 ^ (971 : ℤ)

theorem largest_lt_overflow : largest < overflow := by
  unfold largest overflow
  exact mul_lt_mul_of_pos_right (by norm_num) (by positivity)

theorem lt_overflow_of_lt (h : z < 2 ^ 53 - 1 / 2) : z < overflow :=
  h.trans_le (le_mul_of_one_le_right (by norm_num) (one_le_zpow₀ one_le_two (by decide)))

theorem Nearest.fits (h : Nearest z u) (hz : z < overflow) : Fits u := by
  have hmiddle : ((2 ^ 53 - 1 : ℕ) : ℚ) + 1 / 2 = 2 ^ 53 - 1 / 2 := by norm_num
  refine h.rounded.fits (h.size_le (k := 2 ^ 53 - 1) (f := 971) (by decide)
    (.inr ⟨by decide, by decide⟩) ?_)
  rwa [hmiddle]

theorem Rounded.isFinite (h : Rounded u) : u.isFinite = true := by
  cases h <;> rfl

theorem isFinite_ofModel_pack (h : Fits u) : (Float.ofModel (.pack u)).isFinite = u.isFinite := by
  show (Float.ofModel (.pack u)).toModel.unpack.isFinite = _
  rw [unpack_ofModel_pack h]

theorem Nearest.isFinite (h : Nearest z u) (hz : z < overflow) :
    (Float.ofModel (.pack u)).isFinite = true := by
  rw [isFinite_ofModel_pack (h.fits hz), h.rounded.isFinite]

theorem not_finite_cases (h : u.isFinite = false) : u = .notANumber ∨ ∃ s, u = .infinity s := by
  cases u with
  | notANumber => exact .inl rfl
  | infinity s => exact .inr ⟨s, rfl⟩
  | zero s => cases h
  | finite s m e hm => cases h

theorem finite_cases {x : Float} (h : x.isFinite = true) :
    (∃ s, x.toModel.unpack = .zero s) ∨ ∃ s m e hm, x.toModel.unpack = .finite s m e hm := by
  change x.toModel.unpack.isFinite = true at h
  cases hx : x.toModel.unpack with
  | notANumber | infinity s =>
      rw [hx] at h
      cases h
  | zero s => exact .inl ⟨s, rfl⟩
  | finite s m e hm => exact .inr ⟨s, m, e, hm, rfl⟩

/-- Nothing makes a product finite that has an infinite factor. -/
theorem isFinite_mul_eq_false (x : Float) {y : Float} (hy : y.isFinite = false) :
    (x * y).isFinite = false := by
  have hproduct :
      UnpackedFloat.mul Format.binary64 x.toModel.unpack y.toModel.unpack = .notANumber ∨
      ∃ s, UnpackedFloat.mul Format.binary64 x.toModel.unpack y.toModel.unpack = .infinity s := by
    rcases not_finite_cases hy with hy | ⟨t, hy⟩
    · rw [hy]
      left
      cases x.toModel.unpack <;> rfl
    · rw [hy]
      cases x.toModel.unpack with
      | notANumber => exact .inl rfl
      | zero s => exact .inl rfl
      | infinity s => exact .inr ⟨_, rfl⟩
      | finite s m e hm => exact .inr ⟨_, rfl⟩
  rw [mul_eq_ofModel]
  rcases hproduct with hproduct | ⟨s, hproduct⟩
  · rw [hproduct]
    exact isFinite_ofModel_pack .notANumber
  · rw [hproduct]
    exact isFinite_ofModel_pack (.infinity s)

theorem div_eq_ofModel (x y : Float) :
    x / y = .ofModel (.pack (.div Format.binary64 x.toModel.unpack y.toModel.unpack)) := rfl

/-- Nothing makes a quotient finite whose dividend is infinite. -/
theorem isFinite_div_eq_false {x : Float} (hx : x.isFinite = false) (y : Float) :
    (x / y).isFinite = false := by
  have hquotient :
      UnpackedFloat.div Format.binary64 x.toModel.unpack y.toModel.unpack = .notANumber ∨
      ∃ s, UnpackedFloat.div Format.binary64 x.toModel.unpack y.toModel.unpack = .infinity s := by
    rcases not_finite_cases hx with hx | ⟨t, hx⟩
    · rw [hx]
      exact .inl rfl
    · rw [hx]
      cases y.toModel.unpack with
      | notANumber => exact .inl rfl
      | infinity s => exact .inl rfl
      | zero s => exact .inr ⟨_, rfl⟩
      | finite s m e hm => exact .inr ⟨_, rfl⟩
  rw [div_eq_ofModel]
  rcases hquotient with hquotient | ⟨s, hquotient⟩
  · rw [hquotient]
    exact isFinite_ofModel_pack .notANumber
  · rw [hquotient]
    exact isFinite_ofModel_pack (.infinity s)

/-- A zero that is added only takes the sign off a zero. -/
theorem isFinite_add_zero (x : Float) : (x + 0).isFinite = x.isFinite := by
  have hsum : x + 0 = .ofModel (.pack (.add Format.binary64 x.toModel.unpack (.zero .positive))) :=
    rfl
  have hfits : Fits x.toModel.unpack := fits_unpack _
  rw [hsum]
  show _ = x.toModel.unpack.isFinite
  cases hx : x.toModel.unpack with
  | notANumber => exact isFinite_ofModel_pack .notANumber
  | infinity s => exact isFinite_ofModel_pack (.infinity s)
  | zero s => cases s <;> exact isFinite_ofModel_pack (.zero _)
  | finite s m e hm =>
      rw [hx] at hfits
      exact isFinite_ofModel_pack (u := .finite s m e hm) hfits

/-! ## §2  Whole numbers -/

theorem size_nonneg (u : UnpackedFloat) : 0 ≤ size u := by
  cases u with
  | finite s m e hm =>
      show (0 : ℚ) ≤ m * 2 ^ e
      positivity
  | _ => exact le_rfl

theorem size_neg (u : UnpackedFloat) : size u.neg = size u := by
  cases u <;> rfl

theorem isFinite_neg (u : UnpackedFloat) : u.neg.isFinite = u.isFinite := by
  cases u <;> rfl

/-- Below `2 ^ 52` the part behind the point has room. -/
theorem finite_of_abs_lt {x : Float} (h : x.abs < allWhole) :
    x.isFinite = true ∧ size x.toModel.unpack < 2 ^ 52 := by
  have hwhole : allWhole.toModel.unpack = .finite .positive (2 ^ 52) 0 (by decide) := rfl
  obtain ⟨a, ha, b, hb, hless⟩ := lt_iff.1 h
  rw [unpack_abs] at ha
  rw [hwhole] at hb
  obtain rfl := Option.some.inj hb
  have hfits : Fits x.toModel.unpack := fits_unpack _
  show x.toModel.unpack.isFinite = true ∧ _
  cases hx : x.toModel.unpack with
  | notANumber =>
      rw [hx] at ha
      cases ha
  | infinity s =>
      rw [hx] at ha
      obtain rfl := Option.some.inj ha
      exact absurd hless (by decide)
  | zero s => exact ⟨rfl, by norm_num [size]⟩
  | finite s m e hm =>
      rw [hx] at ha hfits
      obtain rfl := Option.some.inj ha
      refine ⟨rfl, ?_⟩
      show (m : ℚ) * 2 ^ e < 2 ^ 52
      have hparts := ((Prod.Lex.toLex_lt_toLex.1 hless).resolve_left (lt_irrefl _)).2
      rcases Prod.Lex.toLex_lt_toLex.1 hparts with hexp | ⟨hexp, hsignificand⟩
      · change e < 0 at hexp
        have hm53 : (m : ℚ) < 2 ^ 53 := by exact_mod_cast hfits.lt
        have hhalf : (2 : ℚ) ^ e ≤ 2 ^ (-1 : ℤ) := zpow_le_zpow_right₀ one_le_two (by omega)
        calc (m : ℚ) * 2 ^ e ≤ m * 2 ^ (-1 : ℤ) := by gcongr
          _ < 2 ^ 53 * 2 ^ (-1 : ℤ) := by gcongr
          _ = 2 ^ 52 := by norm_num
      · change e = 0 at hexp
        change (m : ℤ) < (2 ^ 52 : ℕ) at hsignificand
        subst hexp
        rw [zpow_zero, mul_one]
        exact_mod_cast hsignificand

/-- Counted is what stands in front of the point. -/
theorem toUInt64_abs_le {x : Float} (h : x.isFinite = true) :
    (x.abs.toUInt64.toNat : ℚ) ≤ size x.toModel.unpack := by
  have habs := unpack_abs x
  rcases finite_cases h with ⟨s, hx⟩ | ⟨s, m, e, hm, hx⟩
  · rw [hx] at habs ⊢
    have hcount : x.abs.toUInt64 = x.abs.toModel.unpack.toUInt64 := rfl
    rw [hcount, habs]
    exact le_of_eq rfl
  · rw [hx] at habs ⊢
    exact toUInt64_le_size habs

theorem ofNat_finite {k : ℕ} (hk : k < 2 ^ 53) :
    (Float.ofNat k).isFinite = true ∧ size (Float.ofNat k).toModel.unpack = k := by
  refine ⟨isFinite_ofNat hk, ?_⟩
  rcases Nat.eq_zero_or_pos k with rfl | hpos
  · rfl
  · rw [unpack_ofNat hpos hk, size_whole hpos hk]

/-- One more than a whole number below `2 ^ 52` is at most that. -/
theorem ofNat_add_one_finite {k : ℕ} (hk : k < 2 ^ 52) :
    (Float.ofNat k + 1).isFinite = true ∧ size (Float.ofNat k + 1).toModel.unpack ≤ 2 ^ 52 := by
  rcases Nat.eq_zero_or_pos k with rfl | hpos
  · rw [ofNat_zero, zero_add_of_beq_zero (by decide +kernel)]
    exact ⟨rfl, by norm_num [unpack_one, one, size]⟩
  · have hsum : Float.ofNat k + 1 = .ofModel (.pack (.add Format.binary64 (whole k hpos) one)) := by
      rw [← unpack_ofNat hpos (hk.trans (by decide)), ← unpack_one]
      rfl
    have hnearest : Nearest (k + 1) (.add Format.binary64 (whole k hpos) one) := by
      have hone : size one = 1 := by norm_num [one, size]
      rw [← size_whole hpos (hk.trans (by decide)), ← hone]
      exact nearest_add _ _
    have hlimit : (k : ℚ) + 1 ≤ 2 ^ 52 := by exact_mod_cast hk
    have hfits := hnearest.fits (lt_overflow_of_lt (hlimit.trans_lt (by norm_num)))
    rw [hsum, isFinite_ofModel_pack hfits, unpack_ofModel_pack hfits]
    refine ⟨hnearest.rounded.isFinite, ?_⟩
    have hsize := hnearest.size_le (k := 2 ^ 52) (f := 0) (by decide) (.inr ⟨by decide, le_rfl⟩)
    norm_num at hsize
    exact hsize (by linarith)

/-- A finite number stays finite when it is rounded to a whole one, and no larger than it or
`2 ^ 52`. -/
theorem round_finite {x : Float} (h : x.isFinite = true) :
    (round x).isFinite = true ∧
      size (round x).toModel.unpack ≤ max (size x.toModel.unpack) (2 ^ 52) := by
  unfold round
  dsimp only
  split
  · rename_i hsmall
    have hcount : x.abs.toUInt64.toNat < 2 ^ 52 := by
      have hbelow := (toUInt64_abs_le h).trans_lt (finite_of_abs_lt hsmall).2
      exact_mod_cast hbelow
    obtain ⟨hfinite, hlimit⟩ :
        (if 0.5 ≤ x.abs - wholePart x then wholePart x + 1 else wholePart x).isFinite = true ∧
        size (if 0.5 ≤ x.abs - wholePart x then wholePart x + 1 else wholePart x).toModel.unpack ≤
            2 ^ 52 := by
      split
      · exact ofNat_add_one_finite hcount
      · obtain ⟨hfinite, hsize⟩ := ofNat_finite (hcount.trans (by decide))
        refine ⟨hfinite, hsize.le.trans ?_⟩
        exact_mod_cast hcount.le
    generalize (if 0.5 ≤ x.abs - wholePart x then wholePart x + 1 else wholePart x) =
      y at hfinite hlimit ⊢
    split
    · refine ⟨?_, ?_⟩
      · show (-y).toModel.unpack.isFinite = true
        rw [unpack_neg, isFinite_neg]
        exact hfinite
      · rw [unpack_neg, size_neg]
        exact hlimit.trans (le_max_right _ _)
    · split
      · exact ⟨h, le_max_left _ _⟩
      · exact ⟨hfinite, hlimit.trans (le_max_right _ _)⟩
  · exact ⟨h, le_max_left _ _⟩

theorem round_of_not_finite {x : Float} (h : x.isFinite = false) : round x = x := by
  refine if_neg fun hsmall => ?_
  rw [(finite_of_abs_lt hsmall).1] at h
  cases h

/-! ## §3  Quotients -/

theorem div_finite {x y : Float} (hx : x.isFinite = true) (hy : y.toModel.unpack = .finite t n f hn)
    (h : size x.toModel.unpack < overflow * (n * 2 ^ f)) : (x / y).isFinite = true := by
  have hpos : (0 : ℚ) < n * 2 ^ f := by positivity
  rw [div_eq_ofModel, hy]
  rcases finite_cases hx with ⟨s, hu⟩ | ⟨s, m, e, hm, hu⟩
  · rw [hu]
    exact isFinite_ofModel_pack (.zero (s / t))
  · rw [hu] at h ⊢
    exact (nearest_div hm hn).isFinite ((div_lt_iff₀ hpos).2 h)

/-! ## §4  Places -/

/-- A tenth, rounded up. -/
def tenth : UnpackedFloat := .finite .positive 7205759403792794 (-56) (by decide)

/-- The largest number times a tenth, rounded. -/
def largestTenth : ℚ := (7205759403792793 : ℕ) * 2 ^ (968 : ℤ)

theorem unpack_tenPower_neg_one : (Coefficient.tenPower (-1) : Float).toModel.unpack = tenth := by
  have hten : Scalar.raise (· * ·) (1 : Float) (Scalar.ofNat 10) 1 = 1 * Scalar.ofNat 10 := by
    rw [Scalar.raise, if_neg one_ne_zero]
    rfl
  have hpower : (Coefficient.tenPower (-1) : Float) =
      1 / Scalar.raise (· * ·) (1 : Float) (Scalar.ofNat 10) 1 := rfl
  rw [hpower, hten]
  rfl

theorem fits_tenth : Fits tenth := .full _ _ _ _ (by decide) (by decide) (by decide) (by decide)

theorem largest_mul_tenth_lt :
    largest * size tenth < ((7205759403792793 : ℕ) + 1 / 2) * 2 ^ (968 : ℤ) := by
  have hsplit : largest = ((2 ^ 53 - 1 : ℕ) * 2 ^ (3 : ℤ)) * 2 ^ (968 : ℤ) := by
    rw [largest, mul_assoc, ← zpow_add₀ two_ne_zero]
    rfl
  rw [hsplit, mul_right_comm]
  exact mul_lt_mul_of_pos_right (by norm_num [size, tenth]) (by positivity)

/-- Back from tens the largest number is less than a unit of its last place further up. -/
theorem largestTenth_lt : largestTenth < overflow * size tenth := by
  have hsplit : overflow = ((2 ^ 53 - 1 / 2) * 2 ^ (3 : ℤ)) * 2 ^ (968 : ℤ) := by
    rw [overflow, mul_assoc, ← zpow_add₀ two_ne_zero]
    rfl
  rw [hsplit, mul_right_comm]
  exact mul_lt_mul_of_pos_right (by norm_num [size, tenth]) (by positivity)

theorem two_pow_le_largestTenth : 2 ^ 52 ≤ largestTenth :=
  (by norm_num : (2 ^ 52 : ℚ) ≤ (7205759403792793 : ℕ)).trans
    (le_mul_of_one_le_right (by positivity) (one_le_zpow₀ one_le_two (by decide)))

theorem size_mul_tenth_le {x y : Float} (hx : x.isFinite = true) (hy : y.toModel.unpack = tenth) :
    size (x * y).toModel.unpack ≤ largestTenth := by
  have hfits : Fits x.toModel.unpack := fits_unpack _
  have hlargest := hfits.size_le_largest
  rw [mul_eq_ofModel, hy]
  rcases finite_cases hx with ⟨s, hu⟩ | ⟨s, m, e, hm, hu⟩
  · have hzero : (Float.ofModel (.pack (.mul Format.binary64 (.zero s) tenth))).toModel.unpack =
        .zero (s * .positive) :=
      unpack_ofModel_pack (.zero _)
    rw [hu, hzero]
    exact (by norm_num : (0 : ℚ) ≤ 2 ^ 52).trans two_pow_le_largestTenth
  · rw [hu] at hfits hlargest ⊢
    have hnearest :
        Nearest (m * 2 ^ e * size tenth) (.mul Format.binary64 (.finite s m e hm) tenth) :=
      nearest_mul hfits fits_tenth
    have hexact : (m : ℚ) * 2 ^ e * size tenth < ((7205759403792793 : ℕ) + 1 / 2) * 2 ^ (968 : ℤ) :=
      (mul_le_mul_of_nonneg_right hlargest (size_nonneg _)).trans_lt largest_mul_tenth_lt
    have hroom : ((7205759403792793 : ℕ) + 1 / 2 : ℚ) * 2 ^ (968 : ℤ) ≤ overflow :=
      mul_le_mul (by norm_num) (zpow_le_zpow_right₀ one_le_two (by decide))
        (by positivity) (by norm_num)
    rw [unpack_ofModel_pack (hnearest.fits (hexact.trans_le hroom))]
    exact hnearest.size_le (by decide) (.inr ⟨by decide, by decide⟩) hexact

/-- Rounded to a whole number, a product with a power of ten is small enough to be divided by the
power again. -/
theorem exists_tenPower {x : Float} (hx : x.isFinite = true) {n : Int32} (hn : -1 ≤ n.toInt)
    (hproduct : (x * Coefficient.tenPower n).isFinite = true) :
    ∃ m e hm, (Coefficient.tenPower n : Float).toModel.unpack = .finite .positive m e hm ∧
      size (round (x * Coefficient.tenPower n)).toModel.unpack < overflow * (m * 2 ^ e) := by
  have hround := (round_finite hproduct).2
  rcases hn.lt_or_eq with hlow | heq
  · have hpower : (Coefficient.tenPower n : Float).isFinite = true := by
      by_contra hinfinite
      rw [isFinite_mul_eq_false x (Bool.eq_false_iff.2 hinfinite)] at hproduct
      cases hproduct
    rcases atLeastOne_tenPower (by omega : 0 ≤ n.toInt) with hinfinite | ⟨m, e, hm, hunpack, hone⟩
    · change (Coefficient.tenPower n : Float).toModel.unpack.isFinite = true at hpower
      rw [hinfinite] at hpower
      cases hpower
    · have hlargest : size (x * Coefficient.tenPower n).toModel.unpack ≤ largest :=
        (fits_unpack _).size_le_largest
      have hbelow : size (round (x * Coefficient.tenPower n)).toModel.unpack < overflow :=
        hround.trans_lt (max_lt (hlargest.trans_lt largest_lt_overflow)
          (lt_overflow_of_lt (by norm_num)))
      exact ⟨m, e, hm, hunpack,
        hbelow.trans_le (le_mul_of_one_le_right ((size_nonneg _).trans hbelow.le) hone)⟩
  · obtain rfl : n = -1 := Int32.toInt_inj.1 heq.symm
    have htenth := size_mul_tenth_le hx unpack_tenPower_neg_one
    exact ⟨_, _, _, unpack_tenPower_neg_one,
      (hround.trans (max_le htenth two_pow_le_largestTenth)).trans_lt largestTenth_lt⟩

/-- **Rounding to places.** What is rounded stays finite if and only if there is room for the
product with the power of ten. -/
theorem isFinite_roundTo {x : Float} (hx : x.isFinite = true) {n : Int32} (hn : -1 ≤ n.toInt) :
    (Coefficient.roundTo n x).isFinite = (x * Coefficient.tenPower n).isFinite := by
  show (round (x * Coefficient.tenPower n) / Coefficient.tenPower n).isFinite = _
  cases hproduct : (x * Coefficient.tenPower n).isFinite with
  | false =>
      rw [round_of_not_finite hproduct]
      exact isFinite_div_eq_false hproduct _
  | true =>
      obtain ⟨m, e, hm, hpower, hsize⟩ := exists_tenPower hx hn hproduct
      exact div_finite (round_finite hproduct).1 hpower hsize

end Binary64

end InkAlgebra
