import Mathlib
import InkAlgebra.Proofs.Polynomial.Formal
import InkAlgebra.Proofs.Polynomial.Reduced

/-!
# Derivatives

The derivative of a polynomial is the formal one, and what a derivation has to satisfy holds of it,
with one exception: the product rule needs a product to differentiate, and one whose degree has more
than 32 bits breaks off. Where a product exists, those in the rule do, for derivatives have lower
degrees; associativity and distributivity do not need more than the products they start from.

§1 is the derivative and the degrees of repeated derivatives, §2 are the laws of multiplication, §3
is the product rule and the laws together.
-/

open Polynomial

namespace InkAlgebra.Polynomial

open Exact

/-! ## §1  Formal derivatives -/

section

variable {K : Type} [Field K] [LinearOrder K]

theorem Reduced.denotes {p : Polynomial K} (h : p.Reduced) : Denotes p (formalSum p.terms) :=
  ⟨rfl, fun t ht => by simpa using h t ht⟩

/-- A derivative stands for the formal derivative; the terms of degree zero, which are left out,
have none. -/
theorem denotes_derivative (p : Polynomial K) :
    Denotes p.derivative ((formalSum p.terms).derivative) := by
  have hsum : ∀ terms : List (Term K),
      formalSum ((terms.filter fun t => 1 ≤ t.1).map fun t =>
        (t.1 - 1, t.2 * Scalar.ofNat t.1.toNat)) = (formalSum terms).derivative := by
    intro terms
    induction terms with
    | nil => simp
    | cons t rest ih =>
        rw [formalSum_cons, derivative_add, derivative_monomial, ← ih]
        by_cases hone : 1 ≤ t.1
        · rw [List.filter_cons_of_pos (by simpa using hone), List.map_cons, formalSum_cons,
            UInt32.toNat_sub_of_le _ _ hone]
          rfl
        · have hzero : t.1 = 0 := by
            rw [UInt32.le_iff_toNat_le] at hone
            apply UInt32.toNat_inj.1
            have : (1 : UInt32).toNat = 1 := rfl
            have : (0 : UInt32).toNat = 0 := rfl
            omega
          rw [List.filter_cons_of_neg (by simpa using hone), hzero]
          simp
  rw [← hsum p.terms]
  exact denotes_ofTerms _

theorem formalSum_plus (p q : Polynomial K) :
    formalSum (p.plus q).terms = formalSum p.terms + formalSum q.terms := by
  rw [plus, (denotes_ofTerms _).formalSum_eq, formalSum_append]

theorem derivative_plus (p q : Polynomial K) :
    (p.plus q).derivative = p.derivative.plus q.derivative := by
  have hsum := denotes_derivative (p.plus q)
  rw [formalSum_plus, derivative_add] at hsum
  exact hsum.eq ((denotes_derivative p).plus (denotes_derivative q))

variable [IsStrictOrderedRing K]

/-- No multiple of a coefficient other than zero is zero here, so that a derivative has one degree
less. -/
theorem Reduced.toNat_degree_derivative {p : Polynomial K} (h : p.Reduced) :
    p.derivative.degree.toNat = p.degree.toNat - 1 := by
  rw [(denotes_derivative p).natDegree, h.denotes.natDegree, natDegree_derivative]

omit [IsStrictOrderedRing K] in
theorem Reduced.iterate_derivative {p : Polynomial K} (h : p.Reduced) (k : ℕ) :
    (derivative^[k] p).Reduced := by
  cases k with
  | zero => exact h
  | succ k =>
      rw [Function.iterate_succ_apply']
      exact reduced_ofTerms _

/-- **The chain of derivatives.** Each derivative has one degree less, down to a constant. -/
theorem Reduced.toNat_degree_iterate_derivative {p : Polynomial K} (h : p.Reduced) (k : ℕ) :
    (derivative^[k] p).degree.toNat = p.degree.toNat - k := by
  induction k with
  | zero => rfl
  | succ k ih =>
      rw [Function.iterate_succ_apply', (h.iterate_derivative k).toNat_degree_derivative, ih,
        Nat.sub_sub]

/-- The constant at its end is not zero. -/
theorem Reduced.isZero_iterate_derivative {p : Polynomial K} (h : p.Reduced)
    (hdegree : 1 ≤ p.degree.toNat) {k : ℕ} (hk : k ≤ p.degree.toNat) :
    (derivative^[k] p).isZero = false := by
  cases k with
  | zero => exact isZero_eq_false_of_degree_ne_zero (Nat.ne_of_gt hdegree)
  | succ k =>
      -- the derivative before has a degree, and only constants have the derivative zero
      have hbefore : (formalSum (derivative^[k] p).terms).natDegree ≠ 0 := by
        rw [← (h.iterate_derivative k).denotes.natDegree, h.toNat_degree_iterate_derivative]
        omega
      rw [Function.iterate_succ_apply', Bool.eq_false_iff]
      intro hzero
      apply hbefore
      apply derivative_eq_zero.1
      rw [← (denotes_derivative _).formalSum_eq, List.isEmpty_iff.1 hzero, formalSum_nil]

end

/-! ## §2  Laws of multiplication -/

section

variable {K : Type} [Field K] [LinearOrder K] {p q r : Polynomial K}

theorem multiply_comm (hp : p.Reduced) (hq : q.Reduced) : p.multiply q = q.multiply p :=
  hp.denotes.multiply_congr hq.denotes hq.denotes hp.denotes (mul_comm _ _)

/-- Three factors multiply to the same from both sides, and break off from both. -/
theorem multiply_assoc (hp : p.Reduced) (hq : q.Reduced) (hr : r.Reduced) {pq qr : Polynomial K}
    (hpq : p.multiply q = .ok pq) (hqr : q.multiply r = .ok qr) : pq.multiply r = p.multiply qr :=
  (hp.denotes.multiply hq.denotes hpq).multiply_congr hr.denotes hp.denotes
    (hq.denotes.multiply hr.denotes hqr) (mul_assoc _ _ _)

theorem multiply_plus (hp : p.Reduced) (hq : q.Reduced) (hr : r.Reduced) {pq pr : Polynomial K}
    (hpq : p.multiply q = .ok pq) (hpr : p.multiply r = .ok pr) :
    p.multiply (q.plus r) = .ok (pq.plus pr) := by
  have hsum := hq.denotes.plus hr.denotes
  have hfitQ := (hp.denotes.sumsFit_iff hq.denotes).1 (multiply_eq_ok hpq).1
  have hfitR := (hp.denotes.sumsFit_iff hr.denotes).1 (multiply_eq_ok hpr).1
  have hfit : (formalSum p.terms * (formalSum q.terms + formalSum r.terms)).natDegree <
      UInt32.size := by
    rw [mul_add]
    exact (natDegree_add_le _ _).trans_lt (max_lt hfitQ hfitR)
  obtain ⟨product, hproduct, hdenotes⟩ := hp.denotes.exists_multiply hsum hfit
  rw [mul_add] at hdenotes
  have hparts := (hp.denotes.multiply hq.denotes hpq).plus (hp.denotes.multiply hr.denotes hpr)
  rw [hproduct, hdenotes.eq hparts]

end

/-! ## §3  The product rule -/

/-- A factor that is differentiated makes no product longer. -/
theorem natDegree_derivative_mul_le {K : Type} [Field K] (f g : K[X]) :
    (f.derivative * g).natDegree ≤ (f * g).natDegree := by
  by_cases hzero : f.derivative * g = 0
  · rw [hzero, natDegree_zero]
    exact Nat.zero_le _
  · obtain ⟨hderivative, hg⟩ := mul_ne_zero_iff.1 hzero
    have hf : f ≠ 0 := by
      rintro rfl
      exact hderivative derivative_zero
    rw [natDegree_mul hderivative hg, natDegree_mul hf hg]
    exact Nat.add_le_add_right ((natDegree_derivative_le f).trans (Nat.sub_le _ _)) _

section

variable {K : Type} [Field K] [LinearOrder K]

/-- Whether two polynomials have a product, and its derivative is the one that the product rule
says. -/
def ProductRule (p q : Polynomial K) : Prop :=
  ∃ product left right, p.multiply q = .ok product ∧ p.derivative.multiply q = .ok left ∧
    p.multiply q.derivative = .ok right ∧ product.derivative = left.plus right

variable {p q r : Polynomial K}

/-- **Product rule.** It holds exactly where there is a product: next to zero, and where the degrees
of the factors have room together. -/
theorem productRule_iff (hp : p.Reduced) (hq : q.Reduced) :
    ProductRule p q ↔
      (p.isZero = false → q.isZero = false → p.degree.toNat + q.degree.toNat < UInt32.size) := by
  rw [← sumsFit_iff]
  constructor
  · rintro ⟨product, _, _, hproduct, _⟩
    exact (multiply_eq_ok hproduct).1
  · intro hfit
    have hproduct := multiply_of_sumsFit hfit
    have hdegree := (hp.denotes.sumsFit_iff hq.denotes).1 hfit
    obtain ⟨left, hleft, hdenotesLeft⟩ := (denotes_derivative p).exists_multiply hq.denotes
      ((natDegree_derivative_mul_le _ _).trans_lt hdegree)
    have hright : (formalSum p.terms * (formalSum q.terms).derivative).natDegree < UInt32.size := by
      rw [mul_comm] at hdegree ⊢
      exact (natDegree_derivative_mul_le _ _).trans_lt hdegree
    obtain ⟨right, hright, hdenotesRight⟩ :=
      hp.denotes.exists_multiply (denotes_derivative q) hright
    refine ⟨_, left, right, hproduct, hleft, hright, ?_⟩
    have hderivative := denotes_derivative (ofTerms (p.termProducts q))
    rw [(hp.denotes.multiply hq.denotes hproduct).formalSum_eq, derivative_mul] at hderivative
    exact hderivative.eq (hdenotesLeft.plus hdenotesRight)

variable [IsStrictOrderedRing K]

/-- **Laws of derivation.** Derivatives add up, multiplication is commutative, associative and
distributes over addition, and a derivative has one degree less, so that no derivative before that
of a constant is zero. The product rule holds exactly where the degree of the product has room; the
laws of multiplication ask for the products that they start from. -/
theorem derivation_laws (hp : p.Reduced) (hq : q.Reduced) (hr : r.Reduced) :
    (p.plus q).derivative = p.derivative.plus q.derivative ∧
    (ProductRule p q ↔
      (p.isZero = false → q.isZero = false → p.degree.toNat + q.degree.toNat < UInt32.size)) ∧
    p.multiply q = q.multiply p ∧
    (∀ pq qr, p.multiply q = .ok pq → q.multiply r = .ok qr → pq.multiply r = p.multiply qr) ∧
    (∀ pq pr, p.multiply q = .ok pq → p.multiply r = .ok pr →
      p.multiply (q.plus r) = .ok (pq.plus pr)) ∧
    (1 ≤ p.degree.toNat →
      p.derivative.degree.toNat = p.degree.toNat - 1 ∧
      ∀ k ≤ p.degree.toNat,
        (derivative^[k] p).degree.toNat = p.degree.toNat - k ∧
          (derivative^[k] p).isZero = false) := by
  refine ⟨derivative_plus p q, productRule_iff hp hq, multiply_comm hp hq,
    fun pq qr => multiply_assoc hp hq hr, fun pq pr => multiply_plus hp hq hr, ?_⟩
  intro hdegree
  refine ⟨hp.toNat_degree_derivative, ?_⟩
  intro k hk
  exact ⟨hp.toNat_degree_iterate_derivative k, hp.isZero_iterate_derivative hdegree hk⟩

/-- The degree `4294967295` is the highest that a product can have. -/
theorem derivation_laws_at_highest_degree :
    (ofTerms [(0, (-1 : ℚ)), (2, 1)]).Reduced ∧ (ofTerms [(0, (3 : ℚ)), (4294967293, 1)]).Reduced ∧
    (indeterminate : Polynomial ℚ).Reduced ∧
    ProductRule (ofTerms [(0, (-1 : ℚ)), (2, 1)]) (ofTerms [(0, 3), (4294967293, 1)]) := by
  have hlaws := derivation_laws (reduced_ofTerms [(0, (-1 : ℚ)), (2, 1)])
    (reduced_ofTerms [(0, (3 : ℚ)), (4294967293, 1)]) (reduced_ofTerms [(1, (1 : ℚ))])
  exact ⟨reduced_ofTerms _, reduced_ofTerms _, reduced_ofTerms _,
    hlaws.2.1.2 fun _ _ => by decide +kernel⟩

/-- One degree higher there is no product of `x ^ 4294967295` and `x` to differentiate, though both
products on the other side of the rule exist. -/
theorem overflowing_product_breaks_product_rule :
    (ofTerms [(4294967295, (1 : ℚ))]).Reduced ∧ (indeterminate : Polynomial ℚ).Reduced ∧
    (ofTerms [(4294967295, (1 : ℚ))]).multiply indeterminate = .error .overflow ∧
    (∃ left, (ofTerms [(4294967295, (1 : ℚ))]).derivative.multiply indeterminate = .ok left) ∧
    (∃ right, (ofTerms [(4294967295, (1 : ℚ))]).multiply indeterminate.derivative = .ok right) ∧
    ¬ ProductRule (ofTerms [(4294967295, (1 : ℚ))]) indeterminate := by
  have hoverflow : (ofTerms [(4294967295, (1 : ℚ))]).multiply indeterminate = .error .overflow := by
    decide +kernel
  refine ⟨reduced_ofTerms _, reduced_ofTerms _, hoverflow, ?_, ?_, ?_⟩
  · exact exists_eq_ok_of_isOk (by decide +kernel)
  · exact exists_eq_ok_of_isOk (by decide +kernel)
  · rintro ⟨product, _, _, hproduct, _⟩
    rw [hoverflow] at hproduct
    cases hproduct

end

end InkAlgebra.Polynomial
