import Mathlib
import InkAlgebra.Proofs.Number.Rounding
import InkAlgebra.Proofs.Polynomial.Formal

/-!
# How values grow

Two facts about values in exact arithmetic, on which the search for roots rests. Far out the values
have the sign that the leading term gives them, so that an enclosing interval can be looked for. On
bounded intervals they change no faster than some multiple of the argument, so that halving an
interval brings the values at its ends together.

Both are wanted over every ordered field, where neither limits nor compactness are at hand: they are
proved from the coefficients. §1 is the sign far out, §2 the bound on the change.
-/

open Polynomial

namespace InkAlgebra.Polynomial

open Exact

/-! ## §1  Far out -/

section

variable {K : Type} [Field K] [LinearOrder K] [IsStrictOrderedRing K]

/-- A positive leading coefficient keeps the values away from zero far to the right. -/
theorem exists_forall_le_eval {q : K[X]} (h : 0 < q.leadingCoeff) :
    ∃ δ, 0 < δ ∧ ∃ bound, ∀ x, bound ≤ x → δ ≤ q.eval x := by
  -- the polynomial without its constant term is a multiple of one of lower degree
  induction hn : q.natDegree generalizing q with
  | zero =>
      obtain ⟨c, rfl⟩ := natDegree_eq_zero.1 hn
      refine ⟨c, by simpa using h, 0, ?_⟩
      intro x _
      simp
  | succ n ih =>
      have hdegree : q.divX.natDegree = n := by rw [natDegree_divX_eq_natDegree_tsub_one, hn]; rfl
      have hlead : q.divX.leadingCoeff = q.leadingCoeff := by
        rw [leadingCoeff, leadingCoeff, hdegree, coeff_divX, hn]
      obtain ⟨δ, hδ, bound, hbound⟩ := ih (hlead ▸ h) hdegree
      refine ⟨δ, hδ, max (max bound 0) ((|q.coeff 0| + δ) / δ), ?_⟩
      intro x hx
      have hx0 : 0 ≤ x := (le_max_right _ _).trans ((le_max_left _ _).trans hx)
      have hxbound : bound ≤ x := (le_max_left _ _).trans ((le_max_left _ _).trans hx)
      have hxlarge : |q.coeff 0| + δ ≤ δ * x := by
        have hquotient : (|q.coeff 0| + δ) / δ ≤ x := (le_max_right _ _).trans hx
        rw [div_le_iff₀ hδ] at hquotient
        linarith
      calc δ ≤ δ * x + q.coeff 0 := by linarith [neg_abs_le (q.coeff 0)]
        _ ≤ q.divX.eval x * x + q.coeff 0 := by
          have := mul_le_mul_of_nonneg_right (hbound x hxbound) hx0
          linarith
        _ = q.eval x := by
          conv_rhs => rw [← divX_mul_X_add q]
          simp

/-- To the right the values end up with the sign of the leading coefficient. -/
theorem exists_forall_sign_right {q : K[X]} (h : q ≠ 0) :
    ∃ bound, ∀ x, bound ≤ x → 0 < q.eval x * q.leadingCoeff := by
  have hsquare : 0 < (q * C q.leadingCoeff).leadingCoeff := by
    rw [leadingCoeff_mul, leadingCoeff_C]
    exact mul_self_pos.2 (leadingCoeff_ne_zero.2 h)
  obtain ⟨δ, hδ, bound, hbound⟩ := exists_forall_le_eval hsquare
  refine ⟨bound, ?_⟩
  intro x hx
  have hvalue := hbound x hx
  rw [eval_mul, eval_C] at hvalue
  exact hδ.trans_le hvalue

/-- To the left they do so too, turned around if the degree is odd. -/
theorem exists_forall_sign_left {q : K[X]} (h : q ≠ 0) :
    ∃ bound, ∀ x, x ≤ bound → 0 < q.eval x * ((-1) ^ q.natDegree * q.leadingCoeff) := by
  have hmirror : q.comp (-X) ≠ 0 := by
    intro hzero
    have hback : (q.comp (-X)).comp (-X) = q := by
      rw [comp_assoc]
      simp
    rw [hzero, zero_comp] at hback
    exact h hback.symm
  obtain ⟨bound, hbound⟩ := exists_forall_sign_right hmirror
  refine ⟨-bound, ?_⟩
  intro x hx
  have hvalue := hbound (-x) (by linarith)
  rw [comp_neg_X_leadingCoeff_eq, eval_comp, eval_neg, eval_X, neg_neg] at hvalue
  exact hvalue

end

section

variable {K : Type} [Field K] [LinearOrder K] {p : Polynomial K}

theorem leading_formalSum {d : UInt32} {c : K} (h : p.leading? = some (d, c)) (hc : c ≠ 0) :
    (formalSum p.terms).natDegree = d.toNat ∧ (formalSum p.terms).leadingCoeff = c := by
  have hmem : (d, c) ∈ p.terms := List.mem_of_getLast? h
  have hcoeff : (formalSum p.terms).coeff d.toNat = c := coeff_formalSum_of_mem p.ascending hmem
  have hdegree : (formalSum p.terms).natDegree = d.toNat := by
    apply natDegree_eq_of_le_of_coeff_ne_zero
    · rw [natDegree_le_iff_coeff_eq_zero]
      intro n hn
      refine coeff_formalSum_eq_zero ?_
      intro t ht heq
      have hle := le_degree ht
      rw [degree, h] at hle
      dsimp only at hle
      omega
    · rwa [hcoeff]
  exact ⟨hdegree, by rw [leadingCoeff, hdegree, hcoeff]⟩

/-- A sign far out that is not zero comes from a leading coefficient that is not zero. -/
theorem exists_leading_of_limitSign_ne_zero {left : Bool} (h : p.limitSign left ≠ 0) :
    ∃ d c, p.leading? = some (d, c) ∧ c ≠ 0 := by
  unfold limitSign at h
  split at h
  · exact absurd rfl h
  · rename_i d c hlead
    refine ⟨d, c, hlead, ?_⟩
    rintro rfl
    simp [Scalar.sign] at h

variable [IsStrictOrderedRing K]

theorem sign_mul_self_pos {c : K} (hc : c ≠ 0) : 0 < Scalar.sign c * c := by
  unfold Scalar.sign
  rcases lt_or_gt_of_ne hc with hneg | hpos
  · rw [if_pos hneg]
    linarith
  · rw [if_neg (not_lt_of_gt hpos), if_pos hpos, one_mul]
    exact hpos

/-- Two numbers of the sign of a third have the same sign. -/
theorem mul_pos_of_mul_pos {a b c : K} (ha : 0 < a * c) (hb : 0 < b * c) : 0 < a * b := by
  have hsquare : 0 < c * c := mul_self_pos.2 (right_ne_zero_of_mul ha.ne')
  have hproduct : 0 < (a * b) * (c * c) := by
    have := mul_pos ha hb
    linarith
  exact (mul_pos_iff_of_pos_right hsquare).1 hproduct

variable [FloorRing K]

/-- **Signs far out.** From some point on to the right the values have the sign that the polynomial
is said to end up with there. -/
theorem exists_forall_limitSign_right (h : p.limitSign false ≠ 0) :
    ∃ bound, ∀ x, bound ≤ x → 0 < p.eval x * p.limitSign false := by
  obtain ⟨d, c, hlead, hc⟩ := exists_leading_of_limitSign_ne_zero h
  obtain ⟨_, hcoeff⟩ := leading_formalSum hlead hc
  obtain ⟨bound, hbound⟩ := exists_forall_sign_right (leadingCoeff_ne_zero.1 (hcoeff ▸ hc))
  have hsign : 0 < p.limitSign false * c := by
    unfold limitSign
    rw [hlead]
    simpa using sign_mul_self_pos hc
  refine ⟨bound, ?_⟩
  intro x hx
  rw [eval_eq_eval_formalSum]
  exact mul_pos_of_mul_pos (hcoeff ▸ hbound x hx) hsign

/-- From some point on to the left they do so too. -/
theorem exists_forall_limitSign_left (h : p.limitSign true ≠ 0) :
    ∃ bound, ∀ x, x ≤ bound → 0 < p.eval x * p.limitSign true := by
  obtain ⟨d, c, hlead, hc⟩ := exists_leading_of_limitSign_ne_zero h
  obtain ⟨hdegree, hcoeff⟩ := leading_formalSum hlead hc
  obtain ⟨bound, hbound⟩ := exists_forall_sign_left (leadingCoeff_ne_zero.1 (hcoeff ▸ hc))
  rw [hdegree, hcoeff] at hbound
  have hparity : (d % 2 == 1) = (d.toNat % 2 == 1) := by
    rw [Bool.eq_iff_iff, beq_iff_eq, beq_iff_eq, ← UInt32.toNat_inj, UInt32.toNat_mod]
    rfl
  have hsign : 0 < p.limitSign true * ((-1) ^ d.toNat * c) := by
    unfold limitSign
    rw [hlead]
    dsimp only
    rw [Bool.true_and, hparity]
    rcases Nat.mod_two_eq_zero_or_one d.toNat with heven | hodd
    · rw [heven, (Nat.even_iff.2 heven).neg_one_pow, one_mul]
      exact sign_mul_self_pos hc
    · rw [hodd, (Nat.odd_iff.2 hodd).neg_one_pow]
      simpa using sign_mul_self_pos hc
  refine ⟨bound, ?_⟩
  intro x hx
  rw [eval_eq_eval_formalSum]
  exact mul_pos_of_mul_pos (hbound x hx) hsign

/-! ## §2  On bounded intervals -/

/-- **Values change at a bounded rate** wherever the argument is bounded. -/
theorem exists_abs_sub_le (p : Polynomial K) (bound : K) :
    ∃ rate, ∀ x y, |x| ≤ bound → |y| ≤ bound → |p.eval x - p.eval y| ≤ rate * |x - y| := by
  have hformal : ∀ q : K[X], ∃ rate,
      ∀ x y, |x| ≤ bound → |y| ≤ bound → |q.eval x - q.eval y| ≤ rate * |x - y| := by
    intro q
    induction q using Polynomial.induction_on' with
    | add f g ihF ihG =>
        obtain ⟨rateF, hF⟩ := ihF
        obtain ⟨rateG, hG⟩ := ihG
        refine ⟨rateF + rateG, ?_⟩
        intro x y hx hy
        calc |(f + g).eval x - (f + g).eval y|
            = |(f.eval x - f.eval y) + (g.eval x - g.eval y)| := by
              rw [eval_add, eval_add]
              congr 1
              ring
          _ ≤ |f.eval x - f.eval y| + |g.eval x - g.eval y| := abs_add_le _ _
          _ ≤ rateF * |x - y| + rateG * |x - y| := add_le_add (hF x y hx hy) (hG x y hx hy)
          _ = (rateF + rateG) * |x - y| := by ring
    | monomial n c =>
        refine ⟨|c| * (n * |bound| ^ (n - 1)), ?_⟩
        intro x y hx hy
        have hpow : |x ^ n - y ^ n| ≤ |x - y| * n * |bound| ^ (n - 1) := by
          refine (abs_pow_sub_pow_le ..).trans ?_
          gcongr
          exact max_le (hx.trans (le_abs_self bound)) (hy.trans (le_abs_self bound))
        calc |(monomial n c).eval x - (monomial n c).eval y| = |c| * |x ^ n - y ^ n| := by
              rw [eval_monomial, eval_monomial, ← mul_sub, abs_mul]
          _ ≤ |c| * (|x - y| * n * |bound| ^ (n - 1)) := by gcongr
          _ = |c| * (n * |bound| ^ (n - 1)) * |x - y| := by ring
  obtain ⟨rate, h⟩ := hformal (formalSum p.terms)
  refine ⟨rate, ?_⟩
  intro x y hx hy
  rw [eval_eq_eval_formalSum, eval_eq_eval_formalSum]
  exact h x y hx hy

end

end InkAlgebra.Polynomial
