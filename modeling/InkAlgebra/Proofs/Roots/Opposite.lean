import Mathlib
import InkAlgebra.Proofs.Equation.Difference
import InkAlgebra.Proofs.Number.Rounding
import InkAlgebra.Proofs.Polynomial.Formal

/-!
# The opposite of a polynomial

A polynomial and its opposite have the same roots, and in exact arithmetic they are found by the
same steps. The search looks at values in three ways only: how far they are from zero, whether two
of them have one sign, and whether the sign of one is the sign far out. All values of the opposite
have the opposite sign, so none of the three can tell which of the two polynomials it looks at.

§1 is the opposite of a polynomial, §2 the search, §3 the two sides of an equation.
-/

open Polynomial

namespace InkAlgebra

open Exact

namespace Polynomial

variable {K : Type} [Field K] [LinearOrder K]

/-! ## §1  Opposites -/

section

/-- The opposite of a sum is the sum of the opposites. -/
theorem neg_ofTerms (row : List (Term K)) :
    (ofTerms row).neg = ofTerms (row.map fun t => (t.1, -t.2)) := by
  have h := denotes_ofTerms (row.map fun t => (t.1, -t.2))
  rw [formalSum_map_neg] at h
  exact (denotes_ofTerms row).neg.eq h

/-- Subtracting the other way around gives the opposite. -/
theorem minus_eq_neg_minus (p q : Polynomial K) : q.minus p = (p.minus q).neg := by
  show ofTerms (q.terms ++ p.neg.terms) = (ofTerms (p.terms ++ q.neg.terms)).neg
  rw [neg_ofTerms]
  refine ofTerms_congr ?_
  rw [List.map_append, formalSum_append, formalSum_append, formalSum_map_neg, formalSum_map_neg]
  unfold neg
  dsimp only
  rw [formalSum_map_neg, formalSum_map_neg, neg_neg, add_comm]

theorem leading?_neg (p : Polynomial K) : p.neg.leading? = p.leading?.map fun t => (t.1, -t.2) :=
  List.getLast?_map

@[simp] theorem degree_neg (p : Polynomial K) : p.neg.degree = p.degree := by
  unfold degree
  rw [leading?_neg]
  cases p.leading? <;> rfl

@[simp] theorem isZero_neg (p : Polynomial K) : p.neg.isZero = p.isZero :=
  List.isEmpty_map

@[simp] theorem coefficient_neg (p : Polynomial K) (d : UInt32) :
    p.neg.coefficient d = -p.coefficient d := by
  have hfind : (p.neg.terms.find? fun t => t.1 = d) =
      (p.terms.find? fun t => t.1 = d).map fun t => (t.1, -t.2) :=
    List.find?_map ..
  unfold coefficient
  rw [hfind]
  cases p.terms.find? fun t => t.1 = d with
  | none => exact neg_zero.symm
  | some t => rfl

theorem derivative_neg (p : Polynomial K) : p.neg.derivative = p.derivative.neg := by
  unfold derivative
  rw [neg_ofTerms]
  congr 1
  unfold neg
  dsimp only
  rw [List.filter_map, List.map_map, List.map_map]
  exact List.map_congr_left fun t _ => Prod.ext rfl (neg_mul t.2 _)

theorem iterate_derivative_neg (p : Polynomial K) (k : ℕ) :
    derivative^[k] p.neg = (derivative^[k] p).neg := by
  induction k generalizing p with
  | zero => rfl
  | succ k ih => rw [Function.iterate_succ_apply, Function.iterate_succ_apply, derivative_neg, ih]

variable [IsStrictOrderedRing K]

theorem sign_neg (c : K) : Scalar.sign (-c) = -Scalar.sign c := by
  unfold Scalar.sign
  rcases lt_trichotomy c 0 with hc | rfl | hc
  · rw [if_neg (by linarith), if_pos (by linarith), if_pos hc, neg_neg]
  · simp
  · rw [if_pos (by linarith), if_neg (by linarith), if_pos hc]

@[simp] theorem limitSign_neg (p : Polynomial K) (left : Bool) :
    p.neg.limitSign left = -p.limitSign left := by
  unfold limitSign
  rw [leading?_neg]
  cases p.leading? with
  | none => exact neg_zero.symm
  | some t =>
      dsimp only [Option.map_some]
      rw [sign_neg]
      split <;> rfl

@[simp] theorem eval_neg [FloorRing K] (p : Polynomial K) (x : K) : p.neg.eval x = -p.eval x := by
  have hsum : formalSum p.neg.terms = -formalSum p.terms := formalSum_map_neg p.terms
  rw [eval_eq_eval_formalSum, eval_eq_eval_formalSum, hsum]
  simp

end

/-! ## §2  The search -/

section

variable [IsStrictOrderedRing K] [FloorRing K] (p : Polynomial K) (s : SolverSettings K)

theorem lowerBound_neg (upper : K) : p.neg.lowerBound upper s = p.lowerBound upper s := by
  have hzero : ∀ value : K, (-value == 0) = (value == 0) := fun value => by simp
  unfold lowerBound
  simp only [eval_neg, limitSign_neg, neg_mul_neg, hzero]

theorem upperBound_neg (lower : K) : p.neg.upperBound lower s = p.upperBound lower s := by
  unfold upperBound
  simp only [eval_neg, limitSign_neg, neg_mul_neg]

theorem roundRoot_neg (digits : Int32) (x : K) :
    p.neg.roundRoot digits x = p.roundRoot digits x := by
  unfold roundRoot
  simp only [eval_neg, scalarAbs_eq_abs, abs_neg]

theorem bisect_neg (epsilon : K) (halvings : ℕ) (low high middle : K) :
    p.neg.bisect epsilon halvings low high middle = p.bisect epsilon halvings low high middle := by
  induction halvings generalizing low high middle with
  | zero => rfl
  | succ n ih =>
      rw [bisect, bisect]
      simp only [eval_neg, scalarAbs_eq_abs, abs_neg, neg_mul_neg, ih]

theorem findRoot_neg (lower upper : K) (includeUpper : Bool) :
    p.neg.findRoot lower upper includeUpper s = p.findRoot lower upper includeUpper s := by
  unfold findRoot
  simp only [eval_neg, scalarAbs_eq_abs, abs_neg, neg_mul_neg, roundRoot_neg, bisect_neg]

theorem rootsBetween_neg (points : List K) :
    p.neg.rootsBetween s points = p.rootsBetween s points := by
  induction points with
  | nil => rfl
  | cons a rest ih =>
      cases rest with
      | nil => rfl
      | cons b rest => rw [rootsBetween, rootsBetween, findRoot_neg, ih]

theorem rootsFromCritical_neg (points : List K) :
    p.neg.rootsFromCritical points s = p.rootsFromCritical points s := by
  have hleft : ∀ first, p.neg.rootsLeftOf s first = p.rootsLeftOf s first := by
    intro first
    unfold rootsLeftOf
    simp only [lowerBound_neg, findRoot_neg]
  have hright : ∀ last before, p.neg.rootsFrom s last before = p.rootsFrom s last before := by
    intro last before
    unfold rootsFrom
    simp only [upperBound_neg, findRoot_neg, eval_neg, scalarAbs_eq_abs, abs_neg]
  unfold rootsFromCritical
  simp only [hleft, hright, rootsBetween_neg]

/-- **Opposites are solved alike**, at every degree. -/
theorem solve_neg : p.neg.solve s = p.solve s := by
  induction hn : p.degree.toNat using Nat.strong_induction_on generalizing p with
  | _ n ih =>
      by_cases hcap : s.maxDegree < p.degree
      · rw [solve, degree_neg, if_pos hcap, solve, if_pos hcap]
      · have hcap' : ¬ s.maxDegree < p.neg.degree := by rwa [degree_neg]
        rcases Nat.lt_or_ge p.degree.toNat 2 with hlow | hhigh
        · rcases Nat.le_one_iff_eq_zero_or_eq_one.1 (Nat.le_of_lt_succ hlow) with hzero | hone
          · rw [solve_of_degree_eq_zero hcap hzero,
              solve_of_degree_eq_zero hcap' (by rwa [degree_neg]), isZero_neg]
          · rw [solve_of_degree_eq_one hcap hone, solve_of_degree_eq_one hcap'
              (by rwa [degree_neg]), coefficient_neg, coefficient_neg, neg_div_neg_eq]
        · have hless : p.derivative.degree.toNat < n := hn ▸ degree_derivative_lt (by omega)
          have hderivative : p.neg.derivative.solve s = p.derivative.solve s := by
            rw [derivative_neg]
            exact ih _ hless p.derivative rfl
          rw [solve_of_two_le_degree hcap hhigh,
            solve_of_two_le_degree hcap' (by rwa [degree_neg]), hderivative]
          simp only [rootsFromCritical_neg]

end

end Polynomial

/-! ## §3  The two sides of an equation -/

variable {K : Type} [Field K] [LinearOrder K] [IsStrictOrderedRing K] [FloorRing K]

/-- **Swapping sides.** In exact arithmetic an equation whose sides are accepted is solved like the
equation with its sides swapped: with the same roots in the same order, with infinitely many, or
with the same failure. It is so because a polynomial and its opposite are solved alike, and so are
all their derivatives, down to the closed form. -/
theorem solveEquation_swapped (s : SolverSettings K) {left right : List Char} {p q : Polynomial K}
    (hleft : Polynomial.ofExpression s.maxDegree left = .ok p)
    (hright : Polynomial.ofExpression s.maxDegree right = .ok q) :
    solveEquation s (left ++ '=' :: right) = solveEquation s (right ++ '=' :: left) ∧
      ∀ (r : Polynomial K) (k : ℕ),
        (Polynomial.derivative^[k] r.neg).solve s = (Polynomial.derivative^[k] r).solve s := by
  constructor
  · have hequation : equationPolynomial s.maxDegree (left ++ '=' :: right) = .ok (p.minus q) :=
      equationPolynomial_eq_minus hleft hright
    have hswapped : equationPolynomial s.maxDegree (right ++ '=' :: left) =
        .ok (p.minus q).neg := by
      rw [← Polynomial.minus_eq_neg_minus]
      exact equationPolynomial_eq_minus hright hleft
    have hsolved : (p.minus q).neg.solve s = (p.minus q).solve s := (p.minus q).solve_neg s
    unfold solveEquation
    rw [hequation, hswapped]
    simp only [bind, Except.bind, hsolved]
  · intro r k
    rw [Polynomial.iterate_derivative_neg]
    exact (Polynomial.derivative^[k] r).solve_neg s

/-- Of `x^2-4=0` the right side is not looked at, of `0=x^2-4` it is. -/
theorem squareIsFour_swapped :
    solveEquation (.standard : SolverSettings ℚ) "x^2-4=0".toList =
        solveEquation .standard "0=x^2-4".toList ∧
      ∀ (r : Polynomial ℚ) (k : ℕ),
        (Polynomial.derivative^[k] r.neg).solve .standard =
          (Polynomial.derivative^[k] r).solve .standard := by
  obtain ⟨p, hp⟩ : ∃ p : Polynomial ℚ, Polynomial.ofExpression 256 "x^2-4".toList = .ok p :=
    exists_eq_ok_of_isOk (by decide +kernel)
  obtain ⟨q, hq⟩ : ∃ q : Polynomial ℚ, Polynomial.ofExpression 256 "0".toList = .ok q :=
    exists_eq_ok_of_isOk (by decide +kernel)
  exact solveEquation_swapped .standard hp hq

end InkAlgebra
