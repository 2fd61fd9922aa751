import Mathlib
import InkAlgebra.Proofs.Number.Nearest

/-!
# How large products, quotients and counts are

Products and quotients of binary64 are rounded once, so that each is nearest to the exact one, and
so is a sum of numbers above zero. A count is a number with what is behind its point cut off, hence
no larger.

§1 is products, §2 quotients, §3 sums, §4 counts and comparisons.
-/

namespace InkAlgebra

namespace Binary64

open Float.Model (Format UnpackedFloat totalExponent)
open Float.Model.UnpackedFloat (Sign Accuracy ExtendedMantissa)

variable {m n : ℕ} {e f : ℤ} {s t : Sign} {hm : 0 < m} {hn : 0 < n}

/-! ## §1  Products -/

/-- A significand has its highest bit, or the least exponent. -/
theorem Fits.log2_or_least (h : Fits (.finite s m e hm)) :
    -1074 ≤ e ∧ (e = -1074 ∨ m.log2 = 52) := by
  cases h with
  | small s m hpos hm => exact ⟨le_rfl, .inl rfl⟩
  | full s m e hpos hlow hhigh hleast _ =>
      exact ⟨hleast, .inr ((Nat.log2_eq_iff hpos.ne').2 ⟨hlow, hhigh⟩)⟩

theorem Fits.lt (h : Fits (.finite s m e hm)) : m < 2 ^ 53 := by
  cases h with
  | small s m hpos hm => exact hm.trans (by decide)
  | full s m e hpos hlow hhigh hleast hmost => exact hhigh

theorem log2_add_log2_le (hm : 0 < m) (hn : 0 < n) : m.log2 + n.log2 ≤ (m * n).log2 := by
  rw [Nat.le_log2 (Nat.mul_pos hm hn).ne', pow_add]
  exact Nat.mul_le_mul (Nat.log2_self_le hm.ne') (Nat.log2_self_le hn.ne')

theorem nearest_mul (hu : Fits (.finite s m e hm)) (hv : Fits (.finite t n f hn)) :
    Nearest (m * 2 ^ e * (n * 2 ^ f))
        (.mul Format.binary64 (.finite s m e hm) (.finite t n f hn)) := by
  have hexact : (m : ℚ) * 2 ^ e * (n * 2 ^ f) = (m * n : ℕ) * 2 ^ (e + f) := by
    rw [zpow_add₀ two_ne_zero]
    push_cast
    ring
  obtain ⟨he, hu⟩ := hu.log2_or_least
  obtain ⟨hf, hv⟩ := hv.log2_or_least
  have hlog := log2_add_log2_le hm hn
  rw [hexact]
  exact nearest_roundWithAccuracy (s * t) rfl (by omega) (.inl (Nat.mul_pos hm hn).ne')

/-! ## §2  Quotients -/

/-- The remainder tells how the rest of a quotient compares with a half. -/
theorem locates_quotient (hn : 0 < n) (m : ℕ) :
    Locates (m / n) (m / n) (UnpackedFloat.accuracyOfFraction (m % n) n) := by
  have hnq : (0 : ℚ) < n := by exact_mod_cast hn
  have hsplit : (m : ℚ) / n = (m / n : ℕ) + (m % n : ℕ) / n := by
    rw [eq_comm, ← eq_sub_iff_add_eq', div_eq_iff hnq.ne', sub_mul,
      div_mul_cancel₀ _ hnq.ne', eq_sub_iff_add_eq']
    exact_mod_cast Nat.div_add_mod' m n
  have hbelow : ((m % n : ℕ) : ℚ) / n < 1 := by
    rw [div_lt_one hnq]
    exact_mod_cast Nat.mod_lt m hn
  rw [hsplit, UnpackedFloat.accuracyOfFraction]
  split
  · rename_i hzero
    rw [hzero]
    simp [Locates]
  · rename_i hpos
    have hposq : (0 : ℚ) < (m % n : ℕ) / n := by
      have : (0 : ℚ) < (m % n : ℕ) := by exact_mod_cast Nat.pos_of_ne_zero hpos
      positivity
    have hhalf : ((m % n : ℕ) : ℚ) / n = 2 * (m % n : ℕ) / n / 2 := by ring
    rcases lt_trichotomy (2 * (m % n)) n with hlt | heq | hgt
    · rw [Nat.compare_eq_lt.2 hlt]
      have : (2 * (m % n : ℕ) : ℚ) / n < 1 := by
        rw [div_lt_one hnq]
        exact_mod_cast hlt
      constructor <;> linarith
    · rw [Nat.compare_eq_eq.2 heq]
      have : (2 * (m % n : ℕ) : ℚ) / n = 1 := by
        rw [div_eq_one_iff_eq hnq.ne']
        exact_mod_cast heq
      show _ = _
      linarith
    · rw [Nat.compare_eq_gt.2 hgt]
      have : (1 : ℚ) < 2 * (m % n : ℕ) / n := by
        rw [one_lt_div hnq]
        exact_mod_cast hgt
      constructor <;> linarith

/-- A quotient of significands whose highest bits are so far apart has 53 bits. -/
theorem log2_div_ge (hm : 0 < m) (hn : 0 < n) {k : ℕ} (h : n.log2 + 53 ≤ m.log2 + k) :
    m * 2 ^ k / n ≠ 0 ∧ 52 ≤ (m * 2 ^ k / n).log2 := by
  have hlarge : 2 ^ 52 ≤ m * 2 ^ k / n := by
    rw [Nat.le_div_iff_mul_le hn]
    calc 2 ^ 52 * n ≤ 2 ^ 52 * 2 ^ (n.log2 + 1) := Nat.mul_le_mul_left _ Nat.lt_log2_self.le
      _ = 2 ^ (n.log2 + 53) := by rw [← pow_add, Nat.add_comm 52, Nat.add_assoc]
      _ ≤ 2 ^ (m.log2 + k) := Nat.pow_le_pow_right Nat.zero_lt_two h
      _ = 2 ^ m.log2 * 2 ^ k := pow_add _ _ _
      _ ≤ m * 2 ^ k := Nat.mul_le_mul_right _ (Nat.log2_self_le hm.ne')
  have hne : m * 2 ^ k / n ≠ 0 := by
    intro hzero
    rw [hzero] at hlarge
    exact absurd hlarge (by decide)
  exact ⟨hne, (Nat.le_log2 hne).2 hlarge⟩

theorem nearest_div (hm : 0 < m) (hn : 0 < n) :
    Nearest (m * 2 ^ e / (n * 2 ^ f))
        (.div Format.binary64 (.finite s m e hm) (.finite t n f hn)) := by
  have htarget : Format.binary64.targetExponent (totalExponent m e - totalExponent n f) =
      max (m.log2 - n.log2 + e - f - 53) (-1074) := by
    have hleast : Format.binary64.minExponent = -1074 := by decide
    have hbits : (Format.binary64.mantissaBits : ℤ) = 53 := rfl
    rw [Format.targetExponent, totalExponent, totalExponent, hleast, hbits]
    omega
  obtain ⟨k, hk⟩ : ∃ k : ℕ, min (e - f) (max (m.log2 - n.log2 + e - f - 53) (-1074)) = e - f - k :=
    ⟨(e - f - min (e - f) (max (m.log2 - n.log2 + e - f - 53) (-1074))).toNat, by omega⟩
  have hdiv : UnpackedFloat.div Format.binary64 (.finite s m e hm) (.finite t n f hn) =
      .roundWithAccuracy Format.binary64 (s / t) (m * 2 ^ k / n) (e - f - k)
        (UnpackedFloat.accuracyOfFraction (m * 2 ^ k % n) n) := by
    have hamount : (e - f - (e - f - k)).toNat = k := by omega
    rw [UnpackedFloat.div, UnpackedFloat.divCore, htarget, hk]
    dsimp only
    rw [hamount, Nat.shiftLeft_eq]
  have hexact : (m : ℚ) * 2 ^ e / (n * 2 ^ f) = (m * 2 ^ k : ℕ) / n * 2 ^ (e - f - k) := by
    rw [zpow_sub₀ two_ne_zero, zpow_sub₀ two_ne_zero, zpow_natCast]
    push_cast
    field_simp
  -- above the least exponent the quotient has enough bits
  have hbits : e - f - k ≤ -1074 ∨ m * 2 ^ k / n ≠ 0 ∧ 52 ≤ (m * 2 ^ k / n).log2 := by
    rcases le_or_gt (e - f - k : ℤ) (-1074) with hleast | hgt
    · exact .inl hleast
    · exact .inr (log2_div_ge hm hn (by omega))
  rw [hdiv, hexact]
  refine nearest_roundWithAccuracy (s / t) (locates_quotient hn _) ?_ ?_
  · rcases hbits with hleast | ⟨_, hlog⟩ <;> omega
  · exact hbits.symm.imp And.left id

/-! ## §3  Sums -/

theorem nearest_round (s : Sign) (hm : 0 < m) (e : ℤ) :
    Nearest (m * 2 ^ e) (UnpackedFloat.round Format.binary64 s m e) := by
  obtain ⟨k, hk⟩ : ∃ k : ℕ, (e - max (m.log2 + 1 + e - 53 : ℤ) (-1074)).toNat = k := ⟨_, rfl⟩
  have hround : UnpackedFloat.round Format.binary64 s m e =
      .roundWithAccuracy Format.binary64 s (m * 2 ^ k) (e - k) .exact := by
    rw [UnpackedFloat.round, targetExponent_eq,
      UnpackedFloat.decreaseExponent, hk, Nat.shiftLeft_eq]
  have hexact : (m : ℚ) * 2 ^ e = (m * 2 ^ k : ℕ) * 2 ^ (e - k) := by
    rw [zpow_sub₀ two_ne_zero, zpow_natCast]
    push_cast
    field_simp
  have hlog := log2_mul_two_pow hm.ne' k
  rw [hround, hexact]
  exact nearest_roundWithAccuracy s rfl (by rw [hlog]; omega) (.inl (by positivity))

theorem nearest_add (hm : 0 < m) (hn : 0 < n) :
    Nearest (m * 2 ^ e + n * 2 ^ f)
        (.add Format.binary64 (.finite .positive m e hm) (.finite .positive n f hn)) := by
  obtain ⟨i, hi⟩ : ∃ i : ℕ, (e - min e f).toNat = i := ⟨_, rfl⟩
  obtain ⟨j, hj⟩ : ∃ j : ℕ, (f - min e f).toNat = j := ⟨_, rfl⟩
  have hpos : 0 < m * 2 ^ i + n * 2 ^ j := by positivity
  have hadd : UnpackedFloat.add Format.binary64 (.finite .positive m e hm)
      (.finite .positive n f hn) =
      .round Format.binary64 .positive (m * 2 ^ i + n * 2 ^ j) (min e f) := by
    have hsign : compare ((m * 2 ^ i : ℕ) + (n * 2 ^ j : ℕ) : ℤ) 0 = .gt := by
      rw [compare_gt_iff_gt]
      exact_mod_cast hpos
    rw [UnpackedFloat.add, UnpackedFloat.decreaseExponent, UnpackedFloat.decreaseExponent, hi, hj,
      Nat.shiftLeft_eq, Nat.shiftLeft_eq]
    show UnpackedFloat.normalize _ ((m * 2 ^ i : ℕ) + (n * 2 ^ j : ℕ) : ℤ) _ _ = _
    rw [UnpackedFloat.normalize, hsign]
    rfl
  have hexact : (m : ℚ) * 2 ^ e + n * 2 ^ f = (m * 2 ^ i + n * 2 ^ j : ℕ) * 2 ^ min e f := by
    have hscale : ∀ {m d : ℕ} {g : ℤ}, g = min e f + d →
        (m : ℚ) * 2 ^ g = (m * 2 ^ d : ℕ) * 2 ^ min e f := by
      rintro m d g rfl
      rw [zpow_add₀ two_ne_zero, zpow_natCast]
      push_cast
      ring
    have he : e = min e f + i := by omega
    have hf : f = min e f + j := by omega
    rw [Nat.cast_add, add_mul, ← hscale he, ← hscale hf]
  rw [hadd, hexact]
  exact nearest_round .positive hpos _

/-! ## §4  Counts and comparisons -/

theorem size_whole {c : ℕ} (hc : 0 < c) (hlt : c < 2 ^ 53) : size (whole c hc) = c := by
  have hlog : c.log2 < 53 := (Nat.log2_lt hc.ne').2 hlt
  have hcancel : (52 - c.log2 : ℕ) + ((c.log2 : ℤ) - 52) = 0 := by omega
  show ((c * 2 ^ (52 - c.log2) : ℕ) : ℚ) * 2 ^ ((c.log2 : ℤ) - 52) = c
  push_cast
  rw [mul_assoc, ← zpow_natCast, ← zpow_add₀ two_ne_zero, hcancel, zpow_zero, mul_one]

/-- A number of a larger size than a count is larger than it. -/
theorem ofNat_lt_of_size {c : ℕ} (hc : c < 2 ^ 53) {x : Float}
    (hx : x.toModel.unpack = .finite .positive m e hm) (h : (c : ℚ) < m * 2 ^ e) :
    Float.ofNat c < x := by
  have hfits : Fits (.finite .positive m e hm) := hx ▸ fits_unpack _
  obtain ⟨he, hlog⟩ := hfits.log2_or_least
  rcases Nat.eq_zero_or_pos c with rfl | hpos
  · have hzero : (Float.ofNat 0).toModel.unpack = .zero .positive := rfl
    refine lt_iff.2 ⟨_, by rw [hzero]; rfl, _, by rw [hx]; rfl, ?_⟩
    exact Prod.Lex.toLex_lt_toLex.2 (.inl Int.zero_lt_one)
  · refine lt_iff.2 ⟨_, by rw [unpack_ofNat hpos hc]; rfl, _, by rw [hx]; rfl, ?_⟩
    refine Prod.Lex.toLex_lt_toLex.2 (.inr ⟨rfl, ?_⟩)
    rw [← not_le, Prod.Lex.toLex_le_toLex]
    -- in a place that is no higher the size would be no larger
    intro hle
    refine absurd h (not_lt_of_ge ?_)
    rw [← size_whole hpos hc]
    have hwhole : c * 2 ^ (52 - c.log2) < 2 ^ 53 ∧ 2 ^ 52 ≤ c * 2 ^ (52 - c.log2) := by
      have hne : c * 2 ^ (52 - c.log2) ≠ 0 := by positivity
      exact ((Nat.log2_eq_iff hne).1 (log2_whole hpos hc)).symm
    show (m : ℚ) * 2 ^ e ≤ (c * 2 ^ (52 - c.log2) : ℕ) * 2 ^ ((c.log2 : ℤ) - 52)
    rcases hle with hlt | ⟨heq, hle⟩
    · refine mul_zpow_le_of_lt ?_ (by exact_mod_cast hwhole.2) hlt
      exact_mod_cast hfits.lt.le
    · rw [show e = (c.log2 : ℤ) - 52 from heq]
      refine mul_le_mul_of_nonneg_right ?_ (by positivity)
      have hle' : (m : ℤ) ≤ (c * 2 ^ (52 - c.log2) : ℕ) := hle
      exact_mod_cast hle'

theorem toUInt64_le_size {x : Float} (hx : x.toModel.unpack = .finite .positive m e hm) :
    (x.toUInt64.toNat : ℚ) ≤ m * 2 ^ e := by
  have hclamp : ∀ n : ℕ, (UInt64.ofNatClamp n).toNat ≤ n := by
    intro n
    unfold UInt64.ofNatClamp
    split
    · exact le_rfl
    · rename_i hover
      show UInt64.size - 1 ≤ n
      omega
  have hdef : x.toUInt64 = x.toModel.unpack.toUInt64 := rfl
  obtain ⟨i, hi⟩ : ∃ i : ℕ, (e - 0).toNat = i := ⟨_, rfl⟩
  obtain ⟨j, hj⟩ : ∃ j : ℕ, (0 - (e - i)).toNat = j := ⟨_, rfl⟩
  have hcut : x.toUInt64.toNat ≤
      (ExtendedMantissa.ofMantissaAndAccuracy (m * 2 ^ i) .exact >>> j).mantissa := by
    rw [hdef, hx, UnpackedFloat.toUInt64, UnpackedFloat.toInt, UnpackedFloat.roundToInt,
      UnpackedFloat.decreaseExponent, hi]
    dsimp only
    rw [UnpackedFloat.shiftToExponent, hj, Nat.shiftLeft_eq]
    exact hclamp _
  have hplaces :=
    (locates_shiftRight (x := (m * 2 ^ i : ℕ)) (m := m * 2 ^ i) (a := .exact) rfl j).le_and_lt.1
  have hexact : ((m * 2 ^ i : ℕ) : ℚ) / 2 ^ j = m * 2 ^ e := by
    have he : e = i - j := by omega
    rw [he, zpow_sub₀ two_ne_zero, zpow_natCast, zpow_natCast]
    push_cast
    ring
  rw [hexact] at hplaces
  refine le_trans ?_ hplaces
  exact_mod_cast hcut

theorem ofNat_lt_of_infinity {c : ℕ} (hc : c < 2 ^ 53) {x : Float}
    (hx : x.toModel.unpack = .infinity .positive) :
    Float.ofNat c < x := by
  rcases Nat.eq_zero_or_pos c with rfl | hpos
  · have hzero : (Float.ofNat 0).toModel.unpack = .zero .positive := rfl
    refine lt_iff.2 ⟨_, by rw [hzero]; rfl, _, by rw [hx]; rfl, ?_⟩
    exact Prod.Lex.toLex_lt_toLex.2 (.inl (by decide))
  · refine lt_iff.2 ⟨_, by rw [unpack_ofNat hpos hc]; rfl, _, by rw [hx]; rfl, ?_⟩
    exact Prod.Lex.toLex_lt_toLex.2 (.inl one_lt_two)

/-- Below zero nothing is counted. -/
theorem toUInt64_of_negative (m : ℕ) (e : ℤ) (hm : 0 < m) :
    (UnpackedFloat.finite .negative m e hm).toUInt64.toNat = 0 := by
  have hcut : (UnpackedFloat.roundToInt .negative m e).toNat = 0 := by
    unfold UnpackedFloat.roundToInt
    exact Int.toNat_eq_zero.2 (neg_nonpos.2 (Int.natCast_nonneg _))
  rw [UnpackedFloat.toUInt64, UnpackedFloat.toInt, hcut]
  rfl

/-- A product that is above a count by one or more is above it once it is rounded. -/
theorem ofNat_lt_ofNat_mul {c d : ℕ} (hc : c + 1 < 2 ^ 53) (hdpos : 0 < d) (hd : d < 2 ^ 53)
    {x : Float} (hx : x.toModel.unpack = .finite .positive m e hm)
    (h : (c + 1 : ℕ) ≤ d * (m * 2 ^ e : ℚ)) :
    Float.ofNat c < Float.ofNat d * x := by
  have hfits : Fits (.finite .positive m e hm) := hx ▸ fits_unpack _
  have hdsize : ((d * 2 ^ (52 - d.log2) : ℕ) : ℚ) * 2 ^ ((d.log2 : ℤ) - 52) =
      d := size_whole hdpos hd
  have hcsize : (((c + 1) * 2 ^ (52 - (c + 1).log2) : ℕ) : ℚ) * 2 ^
      (((c + 1).log2 : ℤ) - 52) = (c + 1 : ℕ) :=
    size_whole c.succ_pos hc
  have hnearest : Nearest (d * (m * 2 ^ e))
      (.mul Format.binary64 (whole d hdpos) (.finite .positive m e hm)) := by
    rw [← hdsize]
    exact nearest_mul (fits_whole hdpos hd) hfits
  obtain ⟨hclow, hchigh⟩ := (Nat.log2_eq_iff (by positivity)).1 (log2_whole c.succ_pos hc)
  have habove := hnearest.le_size hchigh (by omega) (hcsize.le.trans h)
  rw [hcsize] at habove
  have hunpack : (Float.ofNat d * x).toModel.unpack = UnpackedFloat.unpack Format.binary64
      (UnpackedFloat.pack Format.binary64
          (.mul Format.binary64 (whole d hdpos) (.finite .positive m e hm))) := by
    rw [mul_eq_ofModel, unpack_ofNat hdpos hd, hx]
    rfl
  have hbelow : (c : ℚ) < (c + 1 : ℕ) := by exact_mod_cast c.lt_succ_self
  have hpos : 0 < size (.mul Format.binary64 (whole d hdpos) (.finite .positive m e hm)) :=
    (c.cast_nonneg.trans_lt hbelow).trans_le habove
  rcases hnearest.rounded.unpack_pack_positive (roundWithAccuracy_cases _ _ _ _) hpos with
    hinfinite | ⟨n, f, hn, hfinite, hsize⟩
  · exact ofNat_lt_of_infinity (by omega) (hunpack.trans hinfinite)
  · exact ofNat_lt_of_size (by omega) (hunpack.trans hfinite) (hsize ▸ hbelow.trans_le habove)

/-- **Caps on counts.** A product that is no larger than a count has a count that takes it no
further. -/
theorem mul_toUInt64_le {c d : ℕ} (hc : c < 2 ^ 32) (hd : d < 2 ^ 32) {x : Float}
    (h : ¬ Float.ofNat c < Float.ofNat d * x) : d * x.toUInt64.toNat ≤ c := by
  by_contra hover
  have hdpos : 0 < d := by
    apply Nat.pos_of_ne_zero
    rintro rfl
    omega
  have hcount : x.toModel.unpack.toUInt64.toNat ≠ 0 := by
    intro hzero
    rw [show x.toUInt64 = x.toModel.unpack.toUInt64 from rfl, hzero] at hover
    omega
  cases hx : x.toModel.unpack with
  | notANumber =>
      rw [hx] at hcount
      exact hcount rfl
  | zero s =>
      rw [hx] at hcount
      exact hcount rfl
  | infinity s =>
      cases s with
      | negative =>
          rw [hx] at hcount
          exact hcount rfl
      | positive =>
          refine h (ofNat_lt_of_infinity (hc.trans (by decide)) ?_)
          have hproduct : UnpackedFloat.mul Format.binary64 (whole d hdpos) (.infinity .positive) =
              .infinity .positive :=
            rfl
          rw [mul_eq_ofModel, unpack_ofNat hdpos (hd.trans (by decide)), hx, hproduct]
          exact unpack_ofModel_pack (.infinity .positive)
  | finite s m e hm =>
      cases s with
      | negative =>
          rw [hx] at hcount
          exact hcount (toUInt64_of_negative m e hm)
      | positive =>
          refine h (ofNat_lt_ofNat_mul (by omega) hdpos (hd.trans (by decide)) hx ?_)
          have hover' : ((c + 1 : ℕ) : ℚ) ≤ d * x.toUInt64.toNat := by
            exact_mod_cast Nat.lt_of_not_le hover
          refine hover'.trans (mul_le_mul_of_nonneg_left (toUInt64_le_size hx) (by positivity))

end Binary64

end InkAlgebra
