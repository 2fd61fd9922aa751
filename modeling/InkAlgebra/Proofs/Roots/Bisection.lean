import Mathlib
import InkAlgebra.Proofs.Polynomial.Growth
import InkAlgebra.Proofs.Roots.Precision
import InkAlgebra.Roots.Bisection

/-!
# Closing in, in exact arithmetic

An interval encloses a root if the values at its ends have opposite signs and neither counts as
zero. Half of such an interval is such an interval again, unless the value in its middle counts as
zero, and then the search is over. It has to be over at some time: the values at the ends stay
further apart than some distance, while the interval gets as small as one likes and the values
change at a bounded rate.

Nothing here asks which end is the lower one.

§1 is the rounding of what was found, §2 the halving, §3 the search of an interval.
-/

namespace InkAlgebra

open Exact

variable {K : Type} [Field K] [LinearOrder K] [IsStrictOrderedRing K] [FloorRing K]

/-! ## §1  Rounding -/

namespace SolverSettings

variable {s : SolverSettings K}

/-- Half a unit of the last place that roots are rounded to; nothing, where no root can be
rounded. -/
def halfUnit (s : SolverSettings K) : K :=
  s.digits.toOption.elim 0 fun digits => ((10 : ℕ) : K) ^ (-digits.toInt) / (2 : ℕ)

omit [IsStrictOrderedRing K] in
theorem halfUnit_of_digits {digits : Int32} (h : s.digits = .ok digits) :
    s.halfUnit = 10 ^ (-digits.toInt) / 2 := by
  rw [halfUnit, h]
  show ((10 : ℕ) : K) ^ (-digits.toInt) / (2 : ℕ) = _
  rw [Nat.cast_ofNat, Nat.cast_ofNat]

theorem halfUnit_nonneg (s : SolverSettings K) : 0 ≤ s.halfUnit := by
  unfold halfUnit
  cases s.digits.toOption with
  | none => exact le_rfl
  | some digits =>
      show (0 : K) ≤ ((10 : ℕ) : K) ^ (-digits.toInt) / (2 : ℕ)
      positivity

end SolverSettings

namespace Polynomial

section

variable (p : Polynomial K) (digits : Int32) (x : K)

/-- Rounding brings the value no further from zero. -/
theorem abs_eval_roundRoot_le : |p.eval (p.roundRoot digits x)| ≤ |p.eval x| := by
  unfold roundRoot
  dsimp only
  rw [scalarAbs_eq_abs, scalarAbs_eq_abs]
  split
  · rename_i hle
    exact hle
  · exact le_rfl

/-- Rounding moves a number by at most half a unit of the last place. -/
theorem abs_roundRoot_sub_le : |p.roundRoot digits x - x| ≤ 10 ^ (-digits.toInt) / 2 := by
  unfold roundRoot
  dsimp only
  split
  · exact abs_roundTo_sub_le digits x
  · rw [sub_self, abs_zero]
    positivity

end

/-! ## §2  Halving -/

section

variable (p : Polynomial K) (low high : K)

/-- The half of an interval in which a search goes on: the one at whose ends the signs differ. -/
def halved : K × K :=
  if 0 < p.eval (Scalar.half (low + high)) * p.eval high then (low, Scalar.half (low + high))
  else (Scalar.half (low + high), high)

omit [FloorRing K] in
theorem half_mem_uIcc : Scalar.half (low + high) ∈ Set.uIcc low high := by
  rw [half_eq, Set.mem_uIcc]
  rcases le_total low high with hle | hle
  · exact .inl ⟨by linarith, by linarith⟩
  · exact .inr ⟨by linarith, by linarith⟩

theorem uIcc_halved_subset :
    Set.uIcc (p.halved low high).1 (p.halved low high).2 ⊆ Set.uIcc low high := by
  unfold halved
  split
  · exact Set.uIcc_subset_uIcc_left (half_mem_uIcc low high)
  · exact Set.uIcc_subset_uIcc_right (half_mem_uIcc low high)

theorem abs_sub_halved : |(p.halved low high).1 - (p.halved low high).2| = |low - high| / 2 := by
  have hleft : low - Scalar.half (low + high) = (low - high) / 2 := by
    rw [half_eq]
    ring
  have hright : Scalar.half (low + high) - high = (low - high) / 2 := by
    rw [half_eq]
    ring
  unfold halved
  split
  · rw [hleft, abs_div, abs_two]
  · rw [hright, abs_div, abs_two]

end

/-- An interval with a sign change, whose ends do not count as roots. -/
structure Encloses (p : Polynomial K) (ε low high : K) : Prop where
  low_gt : ε < |p.eval low|
  high_gt : ε < |p.eval high|
  opposite : p.eval low * p.eval high < 0

variable {p : Polynomial K} {ε low high : K}

/-- Between ends that are neither roots nor of one sign a root is enclosed. -/
theorem encloses_of_not_pos (hε : 0 ≤ ε) (hlow : ε < |p.eval low|) (hhigh : ε < |p.eval high|)
    (hsign : ¬ 0 < p.eval low * p.eval high) : p.Encloses ε low high := by
  refine ⟨hlow, hhigh, lt_of_le_of_ne (not_lt.1 hsign) ?_⟩
  exact mul_ne_zero (abs_pos.1 (hε.trans_lt hlow)) (abs_pos.1 (hε.trans_lt hhigh))

/-- A middle whose value counts as zero ends the search. -/
theorem bisect_of_root (hmiddle : ¬ ε < |p.eval (Scalar.half (low + high))|) (n : ℕ) :
    p.bisect ε (n + 1) low high (Scalar.half (low + high)) = some (Scalar.half (low + high)) := by
  rw [bisect]
  dsimp only
  rw [scalarAbs_eq_abs, if_neg hmiddle]

namespace Encloses

theorem ne (h : p.Encloses ε low high) : low ≠ high := by
  rintro rfl
  exact absurd h.opposite (not_lt_of_ge (mul_self_nonneg _))

/-- The values at the ends are on both sides of what counts as zero. -/
theorem two_mul_lt (h : p.Encloses ε low high) : 2 * ε < |p.eval low - p.eval high| := by
  have hlow := h.low_gt
  have hhigh := h.high_gt
  rcases mul_neg_iff.1 h.opposite with ⟨hpos, hneg⟩ | ⟨hneg, hpos⟩
  · rw [abs_of_pos hpos] at hlow
    rw [abs_of_neg hneg] at hhigh
    rw [abs_of_pos (by linarith)]
    linarith
  · rw [abs_of_neg hneg] at hlow
    rw [abs_of_pos hpos] at hhigh
    rw [abs_of_neg (by linarith)]
    linarith

/-- **One halving.** Unless the value in the middle counts as zero, the chosen half encloses a
root. -/
theorem halved (h : p.Encloses ε low high) (hε : 0 ≤ ε)
    (hmiddle : ε < |p.eval (Scalar.half (low + high))|) :
    p.Encloses ε (p.halved low high).1 (p.halved low high).2 := by
  unfold Polynomial.halved
  split
  · rename_i hsame
    refine encloses_of_not_pos hε h.low_gt hmiddle ?_
    intro hpos
    have hends := mul_pos_of_mul_pos hpos (mul_comm _ (p.eval high) ▸ hsame)
    exact absurd h.opposite (not_lt_of_gt hends)
  · rename_i hother
    exact encloses_of_not_pos hε hmiddle h.high_gt hother

/-- The search goes on in the chosen half, whose middle is neither of its ends. -/
theorem bisect_succ (h : p.Encloses ε low high) (hε : 0 ≤ ε)
    (hmiddle : ε < |p.eval (Scalar.half (low + high))|) (n : ℕ) :
    p.bisect ε (n + 1) low high (Scalar.half (low + high)) =
      p.bisect ε n (p.halved low high).1 (p.halved low high).2
        (Scalar.half ((p.halved low high).1 + (p.halved low high).2)) := by
  have hne := (h.halved hε hmiddle).ne
  rw [bisect]
  dsimp only
  rw [scalarAbs_eq_abs, if_pos hmiddle]
  show (if _ then _ else p.bisect ε n (p.halved low high).1 (p.halved low high).2 _) = _
  refine if_neg ?_
  rw [Bool.or_eq_true, beq_iff_eq, beq_iff_eq]
  show ¬ (Scalar.half ((p.halved low high).1 + (p.halved low high).2) = (p.halved low high).1 ∨
    Scalar.half ((p.halved low high).1 + (p.halved low high).2) = (p.halved low high).2)
  rw [half_eq]
  rintro (heq | heq)
  · exact hne (by linarith)
  · exact hne (by linarith)

/-- **What is closed in on is a root**, inside of the interval. -/
theorem of_bisect (h : p.Encloses ε low high) (hε : 0 ≤ ε) {n : ℕ} {x : K}
    (hx : p.bisect ε n low high (Scalar.half (low + high)) = some x) :
    x ∈ Set.uIcc low high ∧ |p.eval x| ≤ ε := by
  induction n generalizing low high with
  | zero => cases hx
  | succ n ih =>
      by_cases hmiddle : ε < |p.eval (Scalar.half (low + high))|
      · rw [h.bisect_succ hε hmiddle] at hx
        obtain ⟨hmem, hvalue⟩ := ih (h.halved hε hmiddle) hx
        exact ⟨p.uIcc_halved_subset low high hmem, hvalue⟩
      · rw [bisect_of_root hmiddle] at hx
        obtain rfl := Option.some.inj hx
        exact ⟨half_mem_uIcc low high, not_lt.1 hmiddle⟩

/-- **Halving ends.** From some number of halvings on, more of them make no difference. -/
theorem exists_bisect (h : p.Encloses ε low high) (hε : 0 < ε) :
    ∃ enough x, ∀ n, enough ≤ n → p.bisect ε n low high (Scalar.half (low + high)) = some x := by
  obtain ⟨rate, hvalues⟩ := p.exists_abs_sub_le (max |low| |high|)
  have hbound : ∀ x ∈ Set.uIcc low high, |x| ≤ max |low| |high| := by
    intro x hx
    rcases Set.mem_uIcc.1 hx with ⟨hlow, hhigh⟩ | ⟨hhigh, hlow⟩
    · exact abs_le_max_abs_abs hlow hhigh
    · exact max_comm |high| |low| ▸ abs_le_max_abs_abs hhigh hlow
  generalize max |low| |high| = bound at hvalues hbound
  have : Archimedean K := FloorRing.archimedean K
  obtain ⟨k, hk⟩ := pow_unbounded_of_one_lt (rate * |low - high| / (2 * ε)) (one_lt_two (α := K))
  rw [div_lt_iff₀ (by linarith)] at hk
  refine ⟨k, ?_⟩
  -- after `k` halvings the ends would be too near for their values to be on both sides of zero
  induction k generalizing low high with
  | zero =>
      have hnear := hvalues low high (hbound low Set.left_mem_uIcc) (hbound high Set.right_mem_uIcc)
      have hfar := h.two_mul_lt
      rw [pow_zero, one_mul] at hk
      linarith
  | succ k ih =>
      by_cases hmiddle : ε < |p.eval (Scalar.half (low + high))|
      · have hhalf : rate * |(p.halved low high).1 - (p.halved low high).2| < 2 ^ k * (2 * ε) := by
          rw [p.abs_sub_halved]
          rw [pow_succ] at hk
          linarith
        obtain ⟨x, hx⟩ := ih (h.halved hε.le hmiddle)
          (fun y hy => hbound y (p.uIcc_halved_subset low high hy)) hhalf
        refine ⟨x, ?_⟩
        intro n hn
        obtain ⟨m, rfl⟩ := Nat.exists_eq_add_of_le' (Nat.one_le_of_lt (Nat.lt_of_succ_le hn))
        rw [h.bisect_succ hε.le hmiddle]
        exact hx m (by omega)
      · refine ⟨Scalar.half (low + high), ?_⟩
        intro n hn
        obtain ⟨m, rfl⟩ := Nat.exists_eq_add_of_le' (Nat.one_le_of_lt (Nat.lt_of_succ_le hn))
        exact bisect_of_root hmiddle m

end Encloses

/-! ## §3  Searching an interval -/

/-- What the search of an interval can end with. -/
inductive Finds (p : Polynomial K) (s : SolverSettings K) (includeUpper : Bool) (lower upper : K) :
    Option K → Prop
  | atLower : |p.eval lower| ≤ s.epsilon → Finds p s includeUpper lower upper (some lower)
  | atUpper {digits : Int32} : |p.eval upper| ≤ s.epsilon → includeUpper = true →
      s.digits = .ok digits →
      Finds p s includeUpper lower upper (some (p.roundRoot digits upper))
  | leftToNext : |p.eval upper| ≤ s.epsilon → includeUpper = false →
      Finds p s includeUpper lower upper none
  | sameSign : 0 < p.eval lower * p.eval upper → Finds p s includeUpper lower upper none
  | inside {x : K} {digits : Int32} : x ∈ Set.uIcc lower upper → |p.eval x| ≤ s.epsilon →
      s.digits = .ok digits →
      Finds p s includeUpper lower upper (some (p.roundRoot digits x))

variable {s : SolverSettings K} {lower upper : K} {includeUpper : Bool}

theorem finds_of_findRoot (hε : 0 ≤ s.epsilon) {found : Option K}
    (h : p.findRoot lower upper includeUpper s = .ok found) :
    p.Finds s includeUpper lower upper found := by
  unfold findRoot at h
  simp only [scalarAbs_eq_abs, decide_eq_true_eq] at h
  split_ifs at h with hlower hupper hinclude hsign
  · cases h
    exact .atLower hlower
  · obtain ⟨digits, hdigits, rfl⟩ := exists_of_map_eq_ok h
    exact .atUpper hupper hinclude hdigits
  · cases h
    exact .leftToNext hupper (Bool.eq_false_iff.2 hinclude)
  · cases h
    exact .sameSign hsign
  · split at h
    · rename_i x hx
      obtain ⟨digits, hdigits, rfl⟩ := exists_of_map_eq_ok h
      have henclosed := encloses_of_not_pos hε (not_le.1 hlower) (not_le.1 hupper) hsign
      obtain ⟨hmem, hvalue⟩ := henclosed.of_bisect hε hx
      exact .inside hmem hvalue hdigits
    · cases h

/-- **Every search of an interval ends**, whatever its ends are. -/
theorem exists_findRoot (hε : 0 < s.epsilon) {digits : Int32} (hdigits : s.digits = .ok digits)
    (p : Polynomial K) (lower upper : K) (includeUpper : Bool) :
    ∃ enough found, ∀ n, enough ≤ n →
      p.findRoot lower upper includeUpper { s with maxHalvings := n } = .ok found := by
  -- the places to round to do not depend on the budget
  have hplaces : ∀ n, ({ s with maxHalvings := n } : SolverSettings K).digits = .ok digits :=
    fun _ => hdigits
  unfold findRoot
  simp only [hplaces, scalarAbs_eq_abs, decide_eq_true_eq]
  split_ifs with hlower hupper hinclude hsign
  · exact ⟨0, some lower, fun _ _ => rfl⟩
  · exact ⟨0, some (p.roundRoot digits upper), fun _ _ => rfl⟩
  · exact ⟨0, none, fun _ _ => rfl⟩
  · exact ⟨0, none, fun _ _ => rfl⟩
  · have henclosed := encloses_of_not_pos hε.le (not_le.1 hlower) (not_le.1 hupper) hsign
    obtain ⟨enough, x, hx⟩ := henclosed.exists_bisect hε
    refine ⟨enough, some (p.roundRoot digits x), ?_⟩
    intro n hn
    rw [hx n hn]
    rfl

end Polynomial

end InkAlgebra
