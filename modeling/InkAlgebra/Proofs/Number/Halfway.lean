import Mathlib
import InkAlgebra.Proofs.Number.Places

/-!
# Halfway between two numbers

Half of the sum of two numbers is rounded twice, and the sum may be too large for the format. If it
is not, the result is between the two numbers: twice a number of the format and half of that again
are numbers that rounding does not pass.

What is strictly between two numbers is so in the row of all numbers of the format. This row has
fewer than `2 ^ 64` places.

§1 is values, §2 the row, §3 what rounding keeps in order, §4 sums, §5 halves of sums.
-/

namespace InkAlgebra

namespace Binary64

open Float.Model (Format UnpackedFloat)
open Float.Model.UnpackedFloat (Sign)

variable {z g : ℚ} {u v : UnpackedFloat} {m n : ℕ} {e f : ℤ} {s t : Sign} {hm : 0 < m} {hn : 0 < n}

/-! ## §1  Values -/

/-- The value of a number that is finite. -/
def value : UnpackedFloat → ℚ
  | .finite .positive m e _ => m * 2 ^ e
  | .finite .negative m e _ => -(m * 2 ^ e)
  | _ => 0

/-- The significands and exponents that the format has, but for a highest exponent. -/
structure Canonical (m : ℕ) (e : ℤ) : Prop where
  lt : m < 2 ^ 53
  least : -1074 ≤ e
  full : e = -1074 ∨ 2 ^ 52 ≤ m

theorem Fits.canonical (h : Fits (.finite s m e hm)) : Canonical m e := by
  cases h with
  | small _ _ _ hlow => exact ⟨by omega, le_rfl, .inl rfl⟩
  | full _ _ _ _ hlow hhigh hleast _ => exact ⟨hhigh, hleast, .inr hlow⟩

theorem Fits.exponent_le (h : Fits (.finite s m e hm)) : e ≤ 971 := by
  cases h with
  | small => decide
  | full _ _ _ _ _ _ _ hmost => exact hmost

/-- Of two sizes the one with the higher exponent is larger, and with one exponent the one with the
larger significand. -/
theorem Canonical.lt_of_lex (hme : Canonical m e) (hnf : Canonical n f)
    (h : e < f ∨ e = f ∧ m < n) : (m : ℚ) * 2 ^ e < n * 2 ^ f := by
  have hpos : ∀ i : ℤ, (0 : ℚ) < 2 ^ i := fun i => by positivity
  rcases h with hlt | ⟨rfl, hlt⟩
  · have hfull : 2 ^ 52 ≤ n := hnf.full.resolve_left (by have := hme.least; omega)
    calc (m : ℚ) * 2 ^ e < 2 ^ 53 * 2 ^ e :=
          mul_lt_mul_of_pos_right (by exact_mod_cast hme.lt) (hpos e)
      _ ≤ n * 2 ^ f := mul_zpow_le_of_lt le_rfl (by exact_mod_cast hfull) hlt
  · exact mul_lt_mul_of_pos_right (by exact_mod_cast hlt) (hpos e)

/-- How a finite number comes before another one. -/
inductive Before : UnpackedFloat → UnpackedFloat → Prop
  | negatives {m n : ℕ} {e f : ℤ} {hm : 0 < m} {hn : 0 < n} (h : f < e ∨ f = e ∧ n < m) :
      Before (.finite .negative m e hm) (.finite .negative n f hn)
  | belowZero {m : ℕ} {e : ℤ} {hm : 0 < m} (t : Sign) : Before (.finite .negative m e hm) (.zero t)
  | apart {m n : ℕ} {e f : ℤ} {hm : 0 < m} {hn : 0 < n} :
      Before (.finite .negative m e hm) (.finite .positive n f hn)
  | aboveZero {n : ℕ} {f : ℤ} {hn : 0 < n} (s : Sign) : Before (.zero s) (.finite .positive n f hn)
  | positives {m n : ℕ} {e f : ℤ} {hm : 0 < m} {hn : 0 < n} (h : e < f ∨ e = f ∧ m < n) :
      Before (.finite .positive m e hm) (.finite .positive n f hn)

theorem before_of_place_lt (hu : u.isFinite = true) (hv : v.isFinite = true)
    {x y : ℤ ×ₗ ℤ ×ₗ ℤ} (hx : x ∈ place u) (hy : y ∈ place v) (h : x < y) : Before u v := by
  cases u with
  | notANumber => cases hu
  | infinity _ => cases hu
  | zero s =>
      cases v with
      | notANumber => cases hv
      | infinity _ => cases hv
      | zero t =>
          obtain rfl := Option.mem_some_iff.1 hx
          obtain rfl := Option.mem_some_iff.1 hy
          exact absurd h (lt_irrefl _)
      | finite t n f hn =>
          cases t <;> obtain rfl := Option.mem_some_iff.1 hx <;>
            obtain rfl := Option.mem_some_iff.1 hy <;> simp [Prod.Lex.toLex_lt_toLex] at h
          exact .aboveZero s
  | finite s m e hm =>
      cases v with
      | notANumber => cases hv
      | infinity _ => cases hv
      | zero t =>
          cases s <;> obtain rfl := Option.mem_some_iff.1 hx <;>
            obtain rfl := Option.mem_some_iff.1 hy <;> simp [Prod.Lex.toLex_lt_toLex] at h
          exact .belowZero t
      | finite t n f hn =>
          cases s <;> cases t <;> obtain rfl := Option.mem_some_iff.1 hx <;>
            obtain rfl := Option.mem_some_iff.1 hy <;> simp [Prod.Lex.toLex_lt_toLex] at h
          · exact .negatives (h.imp_right (And.imp_left Eq.symm))
          · exact .apart
          · exact .positives h

namespace Before

theorem value_lt (h : Before u v) (hu : Fits u) (hv : Fits v) : value u < value v := by
  have hpos : ∀ {m : ℕ} {e : ℤ}, 0 < m → (0 : ℚ) < m * 2 ^ e := by
    intro m e hm
    positivity
  cases h with
  | negatives h => exact neg_lt_neg (hv.canonical.lt_of_lex hu.canonical h)
  | @belowZero m e hm _ => exact neg_neg_of_pos (hpos hm)
  | @apart m n e f hm hn => exact (neg_neg_of_pos (hpos hm)).trans (hpos hn)
  | @aboveZero n f hn _ => exact hpos hn
  | positives h => exact hu.canonical.lt_of_lex hv.canonical h

end Before

/-! ## §2  The row of all numbers -/

/-- The number of a number in the row of the format, counted from zero; both zeros have one. -/
def rank : UnpackedFloat → ℤ
  | .notANumber => 0
  | .infinity .positive => 2047 * 2 ^ 52
  | .infinity .negative => -(2047 * 2 ^ 52)
  | .zero _ => 0
  | .finite .positive m e _ => (e + 1074) * 2 ^ 52 + m
  | .finite .negative m e _ => -((e + 1074) * 2 ^ 52 + m)

theorem abs_rank_le (h : Fits u) : |rank u| ≤ 2047 * 2 ^ 52 := by
  rw [abs_le]
  cases u with
  | notANumber => decide
  | infinity s => cases s <;> decide
  | zero s => cases s <;> decide
  | finite s m e hm =>
      have hlt := h.canonical.lt
      have hleast := h.canonical.least
      have hmost := h.exponent_le
      cases s <;> simp only [rank] <;> constructor <;> omega

theorem Before.rank_lt (h : Before u v) (hu : Fits u) (hv : Fits v) : rank u < rank v := by
  cases h with
  | negatives h =>
      have hlex := hu.canonical.full
      have hlt := hv.canonical.lt
      have hleast := hv.canonical.least
      simp only [rank]
      omega
  | @belowZero m e hm _ =>
      have hleast := hu.canonical.least
      simp only [rank]
      omega
  | apart =>
      have hleast := hu.canonical.least
      have hleast' := hv.canonical.least
      simp only [rank]
      omega
  | aboveZero =>
      have hleast := hv.canonical.least
      simp only [rank]
      omega
  | positives h =>
      have hlex := hv.canonical.full
      have hlt := hu.canonical.lt
      have hleast := hu.canonical.least
      simp only [rank]
      omega

theorem exists_place (h : u.isFinite = true) : ∃ x, x ∈ place u := by
  cases u with
  | notANumber => cases h
  | infinity _ => cases h
  | zero _ => exact ⟨_, rfl⟩
  | finite s m e hm => cases s <;> exact ⟨_, rfl⟩

/-- Of two numbers that are not equal the one with the larger value comes later. -/
theorem rank_lt_of_value_le {x y : Float} (hx : x.isFinite = true) (hy : y.isFinite = true)
    (hne : (x == y) = false) (h : value x.toModel.unpack ≤ value y.toModel.unpack) :
    rank x.toModel.unpack < rank y.toModel.unpack := by
  obtain ⟨i, hi⟩ := exists_place (u := x.toModel.unpack) hx
  obtain ⟨j, hj⟩ := exists_place (u := y.toModel.unpack) hy
  have hfits : ∀ x : Float, Fits x.toModel.unpack := fun x => fits_unpack _
  rcases lt_trichotomy i j with hlt | rfl | hgt
  · exact (before_of_place_lt hx hy hi hj hlt).rank_lt (hfits x) (hfits y)
  · rw [beq_iff.2 ⟨i, hi, hj⟩] at hne
    cases hne
  · have hbefore := before_of_place_lt hy hx hj hi hgt
    exact absurd h (hbefore.value_lt (hfits y) (hfits x)).not_ge

/-! ## §3  What rounding keeps in order -/

/-- Whether a number is one of the format, but for a highest exponent. -/
def OnGrid (g : ℚ) : Prop := ∃ (k : ℕ) (f : ℤ), Canonical k f ∧ |g| = k * 2 ^ f

theorem OnGrid.neg (h : OnGrid g) : OnGrid (-g) := by
  unfold OnGrid
  rwa [abs_neg]

theorem abs_value (u : UnpackedFloat) : |value u| = size u := by
  have hnonneg : ∀ (m : ℕ) (e : ℤ), |(m : ℚ) * 2 ^ e| = m * 2 ^ e := by
    intro m e
    exact abs_of_nonneg (by positivity)
  cases u with
  | notANumber => exact abs_zero
  | infinity _ => exact abs_zero
  | zero _ => exact abs_zero
  | finite s m e hm =>
      cases s with
      | positive => exact hnonneg m e
      | negative => exact (abs_neg _).trans (hnonneg m e)

/-- Twice a number of the format is one, but for a highest exponent. -/
theorem onGrid_two_mul (h : Fits u) : OnGrid (2 * value u) := by
  have hzero : OnGrid 0 := ⟨0, -1074, ⟨by decide, le_rfl, .inl rfl⟩, by simp⟩
  rw [OnGrid, abs_mul, abs_value, abs_two]
  cases u with
  | notANumber => simpa [OnGrid, size] using hzero
  | infinity _ => simpa [OnGrid, size] using hzero
  | zero _ => simpa [OnGrid, size] using hzero
  | finite s m e hm =>
      have hm := h.canonical
      by_cases hfull : 2 ^ 52 ≤ m
      · refine ⟨m, e + 1, ⟨hm.lt, ?_, .inr hfull⟩, ?_⟩
        · have := hm.least
          omega
        · rw [zpow_add₀ two_ne_zero]
          show (2 : ℚ) * (m * 2 ^ e) = _
          ring
      · refine ⟨2 * m, e, ⟨by omega, hm.least, .inl (hm.full.resolve_right hfull)⟩, ?_⟩
        show (2 : ℚ) * (m * 2 ^ e) = _
        push_cast
        ring

theorem onGrid_value (h : Fits u) : OnGrid (value u) := by
  rw [OnGrid, abs_value]
  cases u with
  | notANumber => exact ⟨0, -1074, ⟨by decide, le_rfl, .inl rfl⟩, by simp [size]⟩
  | infinity _ => exact ⟨0, -1074, ⟨by decide, le_rfl, .inl rfl⟩, by simp [size]⟩
  | zero _ => exact ⟨0, -1074, ⟨by decide, le_rfl, .inl rfl⟩, by simp [size]⟩
  | finite s m e hm => exact ⟨m, e, h.canonical, rfl⟩

/-- What is known of the number that an exact result is rounded to: it is on the same side of every
number of the format. -/
structure RoundsTo (z : ℚ) (u : UnpackedFloat) : Prop where
  rounded : Rounded u
  value_le : ∀ {g}, OnGrid g → z ≤ g → value u ≤ g
  le_value : ∀ {g}, OnGrid g → g ≤ z → g ≤ value u

theorem RoundsTo.of_value (h : Rounded u) : RoundsTo (value u) u := ⟨h, fun _ => id, fun _ => id⟩

/-- The sign of the exact result is kept, and its size is rounded. -/
theorem Nearest.roundsTo (h : Nearest |z| u)
    (hsign : 0 ≤ z ∧ value u = size u ∨ z ≤ 0 ∧ value u = -size u) : RoundsTo z u := by
  have hnonneg : 0 ≤ size u := size_nonneg u
  have hle : ∀ {g}, OnGrid g → |z| ≤ |g| → size u ≤ |g| := by
    rintro g ⟨k, f, hk, hg⟩ hzg
    rw [hg] at hzg ⊢
    refine h.size_le hk.lt (hk.full.imp_right fun hfull => ⟨hk.least, hfull⟩) (hzg.trans_lt ?_)
    have hpos : (0 : ℚ) < 2 ^ f := by positivity
    linarith
  have hge : ∀ {g}, OnGrid g → |g| ≤ |z| → |g| ≤ size u := by
    rintro g ⟨k, f, hk, hg⟩ hgz
    rw [hg] at hgz ⊢
    exact h.le_size hk.lt hk.least hgz
  rcases hsign with ⟨hz, hvalue⟩ | ⟨hz, hvalue⟩
  · rw [abs_of_nonneg hz] at hle hge
    refine ⟨h.rounded, ?_, ?_⟩
    · intro g hg hzg
      have hbound := hle hg
      rw [abs_of_nonneg (hz.trans hzg)] at hbound
      exact hvalue ▸ hbound hzg
    · intro g hg hgz
      rw [hvalue]
      rcases le_total g 0 with hneg | hpos
      · exact hneg.trans hnonneg
      · have hbound := hge hg
        rw [abs_of_nonneg hpos] at hbound
        exact hbound hgz
  · rw [abs_of_nonpos hz] at hle hge
    refine ⟨h.rounded, ?_, ?_⟩
    · intro g hg hzg
      rw [hvalue]
      rcases le_total 0 g with hpos | hneg
      · exact (neg_nonpos.2 hnonneg).trans hpos
      · have hbound := hge hg
        rw [abs_of_nonpos hneg] at hbound
        linarith [hbound (neg_le_neg hzg)]
    · intro g hg hgz
      have hbound := hle hg
      rw [abs_of_nonpos (hgz.trans hz)] at hbound
      linarith [hbound (neg_le_neg hgz)]

/-! ## §4  Sums -/

theorem unpackedAdd_comm (u v : UnpackedFloat) :
    UnpackedFloat.add Format.binary64 u v = UnpackedFloat.add Format.binary64 v u := by
  cases u with
  | notANumber => cases v <;> rfl
  | infinity s =>
      cases v with
      | infinity t => cases s <;> cases t <;> rfl
      | notANumber | zero _ | finite _ _ _ _ => rfl
  | zero s =>
      cases v with
      | zero t => cases s <;> cases t <;> rfl
      | notANumber | infinity _ | finite _ _ _ _ => rfl
  | finite s m e hm =>
      cases v with
      | notANumber | infinity _ | zero _ => rfl
      | finite t n f hn =>
          rw [UnpackedFloat.add, UnpackedFloat.add]
          dsimp only
          rw [min_comm, Int.add_comm]

theorem value_of_positive (h : u = .zero .positive ∨ ∃ m e hm, u = .finite .positive m e hm) :
    value u = size u := by
  rcases h with rfl | ⟨m, e, hm, rfl⟩ <;> rfl

theorem value_of_negative (h : u = .zero .negative ∨ ∃ m e hm, u = .finite .negative m e hm) :
    value u = -size u := by
  rcases h with rfl | ⟨m, e, hm, rfl⟩
  · exact neg_zero.symm
  · rfl

theorem round_cases (s : Sign) (m : ℕ) (e : ℤ) :
    UnpackedFloat.round Format.binary64 s m e = .zero s ∨
      ∃ n f hn, UnpackedFloat.round Format.binary64 s m e = .finite s n f hn :=
  roundWithAccuracy_cases s _ _ _

/-- A whole number of units is rounded with its sign. -/
theorem roundsTo_normalize (i : ℤ) (e : ℤ) :
    RoundsTo (i * 2 ^ e) (.normalize Format.binary64 i e .positive) := by
  have hunit : (0 : ℚ) < 2 ^ e := by positivity
  rw [UnpackedFloat.normalize]
  rcases lt_trichotomy i 0 with hneg | rfl | hpos
  · have hcompare : compare i 0 = .lt := compare_lt_iff_lt.2 hneg
    have hiq : (i : ℚ) < 0 := by exact_mod_cast hneg
    have hnat : (((-i).toNat : ℕ) : ℚ) = -i := by
      rw [← Int.cast_natCast, Int.toNat_of_nonneg (by omega)]
      push_cast
      ring
    have hnearest := nearest_round (m := (-i).toNat) .negative (by omega) e
    rw [hnat] at hnearest
    rw [hcompare]
    refine Nearest.roundsTo ?_ (.inr ⟨(mul_neg_of_neg_of_pos hiq hunit).le,
      value_of_negative (round_cases _ _ _)⟩)
    rwa [abs_of_neg (mul_neg_of_neg_of_pos hiq hunit), ← neg_mul]
  · rw [Int.cast_zero, zero_mul]
    exact RoundsTo.of_value (u := .zero .positive) (.zero .positive)
  · have hcompare : compare i 0 = .gt := compare_gt_iff_gt.2 hpos
    have hiq : (0 : ℚ) < i := by exact_mod_cast hpos
    have hnat : ((i.toNat : ℕ) : ℚ) = i := by
      rw [← Int.cast_natCast, Int.toNat_of_nonneg hpos.le]
    have hnearest := nearest_round (m := i.toNat) .positive (by omega) e
    rw [hnat] at hnearest
    rw [hcompare]
    refine Nearest.roundsTo ?_ (.inl ⟨(mul_pos hiq hunit).le,
      value_of_positive (round_cases _ _ _)⟩)
    rwa [abs_of_pos (mul_pos hiq hunit)]

theorem Fits.rounded (h : Fits u) (hfinite : u.isFinite = true) : Rounded u := by
  cases h with
  | notANumber => cases hfinite
  | infinity _ => cases hfinite
  | zero s => exact .zero s
  | small s m hpos hm => exact .small s m hpos hm
  | full s m e hpos hlow hhigh hleast _ => exact .full s m e hpos hlow hhigh hleast

/-- A number in units of a smaller place. -/
theorem value_finite_eq (s : Sign) {d : ℕ} (h : e = f + d) :
    value (.finite s m e hm) = (s.apply (m * 2 ^ d : ℕ) : ℤ) * 2 ^ f := by
  subst h
  cases s with
  | positive =>
      show (m : ℚ) * 2 ^ (f + d) = ((m * 2 ^ d : ℕ) : ℤ) * 2 ^ f
      rw [zpow_add₀ two_ne_zero, zpow_natCast]
      push_cast
      ring
  | negative =>
      show -((m : ℚ) * 2 ^ (f + d)) = ((-(m * 2 ^ d : ℕ) : ℤ) : ℚ) * 2 ^ f
      rw [zpow_add₀ two_ne_zero, zpow_natCast]
      push_cast
      ring

/-- **Sums.** The sum of two finite numbers is the exact one, rounded. -/
theorem roundsTo_add (hu : Fits u) (hv : Fits v) (hfinite : u.isFinite = true)
    (hfinite' : v.isFinite = true) :
    RoundsTo (value u + value v) (.add Format.binary64 u v) := by
  cases u with
  | notANumber => cases hfinite
  | infinity _ => cases hfinite
  | zero s =>
      have hzero : value (.zero s) + value v = value v := zero_add _
      rw [hzero]
      cases v with
      | notANumber => cases hfinite'
      | infinity _ => cases hfinite'
      | zero t =>
          cases s <;> cases t <;>
            first
            | exact RoundsTo.of_value (u := .zero .positive) (.zero _)
            | exact RoundsTo.of_value (u := .zero .negative) (.zero _)
      | finite t n f hn => exact RoundsTo.of_value (hv.rounded rfl)
  | finite s m e hm =>
      cases v with
      | notANumber => cases hfinite'
      | infinity _ => cases hfinite'
      | zero t =>
          have hzero : value (.finite s m e hm) + value (.zero t) = value (.finite s m e hm) :=
            add_zero _
          rw [hzero]
          exact RoundsTo.of_value (hu.rounded rfl)
      | finite t n f hn =>
          obtain ⟨i, hi⟩ : ∃ i : ℕ, (e - min e f).toNat = i := ⟨_, rfl⟩
          obtain ⟨j, hj⟩ : ∃ j : ℕ, (f - min e f).toNat = j := ⟨_, rfl⟩
          have hadd : UnpackedFloat.add Format.binary64 (.finite s m e hm) (.finite t n f hn) =
              .normalize Format.binary64 (s.apply (m * 2 ^ i : ℕ) + t.apply (n * 2 ^ j : ℕ))
                (min e f) .positive := by
            rw [UnpackedFloat.add, UnpackedFloat.decreaseExponent, UnpackedFloat.decreaseExponent,
              hi, hj, Nat.shiftLeft_eq, Nat.shiftLeft_eq]
          have hexact : value (.finite s m e hm) + value (.finite t n f hn) =
              ((s.apply (m * 2 ^ i : ℕ) + t.apply (n * 2 ^ j : ℕ) : ℤ) : ℚ) * 2 ^ min e f := by
            rw [value_finite_eq s (show e = min e f + i by omega),
              value_finite_eq t (show f = min e f + j by omega)]
            push_cast
            ring
          rw [hadd, hexact]
          exact roundsTo_normalize _ _

/-! ## §5  Halves of sums -/

/-- What is finite once it is put into bits had room there. -/
theorem Rounded.unpack_of_finite (h : Rounded u)
    (hfinite : (Float.ofModel (.pack u)).isFinite = true) :
    (Float.ofModel (.pack u)).toModel.unpack = u := by
  rcases h.fits_or_infinite with hfits | ⟨t, _, _, _, _, hinfinite⟩
  · exact unpack_ofModel_pack hfits
  · change (UnpackedFloat.unpack Format.binary64
      (UnpackedFloat.pack Format.binary64 u)).isFinite = true at hfinite
    rw [hinfinite] at hfinite
    cases hfinite

theorem add_eq_ofModel (x y : Float) :
    x + y = .ofModel (.pack (.add Format.binary64 x.toModel.unpack y.toModel.unpack)) := rfl

theorem finite_left_of_add {x y : Float} (h : (x + y).isFinite = true) : x.isFinite = true := by
  have hsum : ∀ {u : UnpackedFloat}, Fits u → u.isFinite = false →
      UnpackedFloat.add Format.binary64 x.toModel.unpack y.toModel.unpack ≠ u := by
    intro u hu hnot heq
    rw [add_eq_ofModel, heq, isFinite_ofModel_pack hu, hnot] at h
    cases h
  by_contra hx
  rcases not_finite_cases (Bool.eq_false_iff.2 hx) with hx | ⟨s, hx⟩ <;> rw [hx] at hsum
  · exact hsum .notANumber rfl rfl
  · cases hy : y.toModel.unpack with
    | infinity t =>
        rw [hy] at hsum
        cases s <;> cases t <;>
          first
          | exact hsum .notANumber rfl rfl
          | exact hsum (.infinity _) rfl rfl
    | notANumber => exact hsum .notANumber rfl (by rw [hy]; rfl)
    | zero _ | finite _ _ _ _ => exact hsum (.infinity s) rfl (by rw [hy]; rfl)

theorem finite_of_add {x y : Float} (h : (x + y).isFinite = true) :
    x.isFinite = true ∧ y.isFinite = true := by
  refine ⟨finite_left_of_add h, finite_left_of_add (y := x) ?_⟩
  rwa [add_eq_ofModel, unpackedAdd_comm]

theorem significand_of_two : 0 < 2 ^ 52 := by decide

def two : UnpackedFloat := .finite .positive (2 ^ 52) (-51) significand_of_two

theorem half_eq_ofModel (x : Float) :
    Scalar.half x = .ofModel (.pack (.div Format.binary64 x.toModel.unpack two)) := rfl

theorem roundsTo_half (hfinite : u.isFinite = true) :
    RoundsTo (value u / 2) (.div Format.binary64 u two) := by
  cases u with
  | notANumber => cases hfinite
  | infinity _ => cases hfinite
  | zero s =>
      have hzero : value (.zero s) / 2 = 0 := zero_div 2
      rw [hzero]
      exact RoundsTo.of_value (u := .zero (s / .positive)) (.zero _)
  | finite s m e hm =>
      have hnearest := nearest_div (s := s) (t := .positive) (e := e) (f := -51) hm
        (show 0 < 2 ^ 52 by decide)
      have hdivisor : (((2 ^ 52 : ℕ) : ℚ) * 2 ^ (-51 : ℤ)) = 2 := by norm_num
      have hsize : (0 : ℚ) ≤ m * 2 ^ e / 2 := by positivity
      rw [hdivisor] at hnearest
      have hcases := roundWithAccuracy_cases (s / .positive) (UnpackedFloat.divCore Format.binary64
        m e (2 ^ 52) (-51)).1 (UnpackedFloat.divCore Format.binary64 m e (2 ^ 52) (-51)).2.1
        (UnpackedFloat.divCore Format.binary64 m e (2 ^ 52) (-51)).2.2
      cases s with
      | positive =>
          refine Nearest.roundsTo ?_ (.inl ⟨hsize, value_of_positive hcases⟩)
          rwa [show |value (.finite .positive m e hm) / 2| = m * 2 ^ e / 2 from abs_of_nonneg hsize]
      | negative =>
          have hvalue : value (.finite .negative m e hm) / 2 = -(m * 2 ^ e / 2) := neg_div _ _
          rw [hvalue]
          refine Nearest.roundsTo ?_ (.inr ⟨neg_nonpos.2 hsize, value_of_negative hcases⟩)
          rwa [abs_neg, abs_of_nonneg hsize]

theorem finite_half {x : Float} (h : x.isFinite = true) : (Scalar.half x).isFinite = true := by
  refine div_finite (n := 2 ^ 52) (f := -51) h rfl ?_
  have hsize := (fits_unpack x.toModel.toBits.toBitVec).size_le_largest
  have hpos : 0 < overflow := by
    unfold overflow
    positivity
  calc size x.toModel.unpack ≤ largest := hsize
    _ < overflow := largest_lt_overflow
    _ ≤ overflow * ((2 ^ 52 : ℕ) * 2 ^ (-51 : ℤ)) := le_mul_of_one_le_right hpos.le (by norm_num)

theorem finite_of_half {x : Float} (h : (Scalar.half x).isFinite = true) : x.isFinite = true := by
  by_contra hx
  rw [show (Scalar.half x).isFinite = false from
    isFinite_div_eq_false (Bool.eq_false_iff.2 hx) _] at h
  cases h

/-- Half of a sum is on the same side of every number as the exact half. -/
theorem value_half_add {x y : Float} (h : (Scalar.half (x + y)).isFinite = true) (hu : Fits u) :
    (2 * value u ≤ value x.toModel.unpack + value y.toModel.unpack →
        value u ≤ value (Scalar.half (x + y)).toModel.unpack) ∧
      (value x.toModel.unpack + value y.toModel.unpack ≤ 2 * value u →
        value (Scalar.half (x + y)).toModel.unpack ≤ value u) := by
  have hsum := finite_of_half h
  obtain ⟨hx, hy⟩ := finite_of_add hsum
  have hadd := roundsTo_add (fits_unpack x.toModel.toBits.toBitVec)
    (fits_unpack y.toModel.toBits.toBitVec) hx hy
  rw [← (show (x + y).toModel.unpack = _ from hadd.rounded.unpack_of_finite hsum)] at hadd
  have hhalf := roundsTo_half (u := (x + y).toModel.unpack) hsum
  rw [← (show (Scalar.half (x + y)).toModel.unpack = _ from hhalf.rounded.unpack_of_finite h)]
    at hhalf
  constructor
  · intro hle
    refine hhalf.le_value (onGrid_value hu) ?_
    have hbound := hadd.le_value (onGrid_two_mul hu) hle
    linarith
  · intro hle
    refine hhalf.value_le (onGrid_value hu) ?_
    have hbound := hadd.value_le (onGrid_two_mul hu) hle
    linarith

/-- **Halves of sums.** What is half of the sum of two numbers, finite, and equal to none of them
has its place between theirs. -/
theorem rank_half_add {x y : Float} (h : (Scalar.half (x + y)).isFinite = true)
    (hx : (Scalar.half (x + y) == x) = false) (hy : (Scalar.half (x + y) == y) = false) :
    rank x.toModel.unpack < rank (Scalar.half (x + y)).toModel.unpack ∧
        rank (Scalar.half (x + y)).toModel.unpack < rank y.toModel.unpack ∨
      rank y.toModel.unpack < rank (Scalar.half (x + y)).toModel.unpack ∧
        rank (Scalar.half (x + y)).toModel.unpack < rank x.toModel.unpack := by
  obtain ⟨hxfinite, hyfinite⟩ := finite_of_add (finite_of_half h)
  have hfits : ∀ x : Float, Fits x.toModel.unpack := fun x => fits_unpack _
  obtain ⟨hlowx, hhighx⟩ := value_half_add h (hfits x)
  obtain ⟨hlowy, hhighy⟩ := value_half_add h (hfits y)
  rcases le_total (value x.toModel.unpack) (value y.toModel.unpack) with hle | hle
  · exact .inl ⟨rank_lt_of_value_le hxfinite h (beq_comm _ _ ▸ hx) (hlowx (by linarith)),
      rank_lt_of_value_le h hyfinite hy (hhighy (by linarith))⟩
  · exact .inr ⟨rank_lt_of_value_le hyfinite h (beq_comm _ _ ▸ hy) (hlowy (by linarith)),
      rank_lt_of_value_le h hxfinite hx (hhighx (by linarith))⟩

theorem unpack_half_of_infinity {x : Float} (h : x.toModel.unpack = .infinity s) :
    (Scalar.half x).toModel.unpack = .infinity s := by
  have hdiv : UnpackedFloat.div Format.binary64 (.infinity s) two = .infinity s := by
    cases s <;> rfl
  rw [half_eq_ofModel, h, hdiv]
  exact unpack_ofModel_pack (.infinity s)

theorem infinity_of_half {x : Float} (h : (Scalar.half x).toModel.unpack = .infinity s) :
    x.toModel.unpack = .infinity s := by
  cases hx : x.toModel.unpack with
  | notANumber =>
      rw [half_eq_ofModel, hx, show UnpackedFloat.div Format.binary64 .notANumber two = .notANumber
        from rfl, unpack_ofModel_pack .notANumber] at h
      cases h
  | infinity t => rw [← h, unpack_half_of_infinity hx]
  | zero _ | finite _ _ _ _ =>
      have hfinite : (Scalar.half x).toModel.unpack.isFinite = true := by
        refine finite_half ?_
        show x.toModel.unpack.isFinite = true
        rw [hx]
        rfl
      rw [h] at hfinite
      cases hfinite

/-- A number does not undo a sum that is infinite. -/
theorem add_infinity {x y : Float} (h : (x + y).toModel.unpack = .infinity s) :
    UnpackedFloat.add Format.binary64 x.toModel.unpack (.infinity s) = .infinity s := by
  have hsum : ∀ {u : UnpackedFloat}, Fits u → u ≠ .infinity s →
      UnpackedFloat.add Format.binary64 x.toModel.unpack y.toModel.unpack ≠ u := by
    intro u hu hne heq
    rw [add_eq_ofModel, heq, unpack_ofModel_pack hu] at h
    exact hne h
  generalize x.toModel.unpack = u at hsum
  generalize y.toModel.unpack = v at hsum
  cases u with
  | notANumber => exact absurd rfl (hsum .notANumber nofun)
  | zero _ | finite _ _ _ _ => rfl
  | infinity t =>
      by_cases hts : t = s
      · subst hts
        cases t <;> rfl
      · exfalso
        cases v with
        | notANumber => exact hsum .notANumber nofun rfl
        | zero _ | finite _ _ _ _ =>
            exact hsum (.infinity t) (fun heq => hts (UnpackedFloat.infinity.inj heq)) rfl
        | infinity r =>
            cases t <;> cases r <;>
              first
              | exact hsum .notANumber nofun rfl
              | exact hsum (.infinity _) (fun heq => hts (UnpackedFloat.infinity.inj heq)) rfl

/-- A half of a sum that is infinite stays the same in the place of one of the two numbers. -/
theorem half_add_of_infinity {x y : Float}
    (h : (Scalar.half (x + y)).toModel.unpack = .infinity s) :
    Scalar.half (x + Scalar.half (x + y)) = Scalar.half (x + y) ∧
      Scalar.half (Scalar.half (x + y) + y) = Scalar.half (x + y) := by
  have hsum := infinity_of_half h
  have hturned : (y + x).toModel.unpack = .infinity s := by
    rwa [add_eq_ofModel, unpackedAdd_comm]
  refine ⟨eq_of_unpack_eq ?_, eq_of_unpack_eq ?_⟩
  · rw [h]
    refine unpack_half_of_infinity ?_
    rw [add_eq_ofModel, h, add_infinity hsum, unpack_ofModel_pack (.infinity s)]
  · rw [h]
    refine unpack_half_of_infinity ?_
    rw [add_eq_ofModel, h, unpackedAdd_comm, add_infinity hturned,
      unpack_ofModel_pack (.infinity s)]

end Binary64

end InkAlgebra
