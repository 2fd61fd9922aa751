import Mathlib
import InkAlgebra.Proofs.Expression.Composition
import InkAlgebra.Proofs.Polynomial.Reduced

/-!
# An equation is its difference

Solving `left = right` is solving `(left)-(right)`. The two texts go different ways: an equation is
divided first and its sides are subtracted as polynomials, a right side `0` is not even looked at,
and a difference is one expression with the subtraction in it. What is solved is the same
polynomial, term by term.

§1 are the polynomials, §2 is solving.
-/

namespace InkAlgebra

/-! ## §1  Polynomials -/

section

variable {α : Type} [Coefficient α] {maxDegree : UInt32}
  {left right : List Char} {p q : Polynomial α}

theorem not_mem_equals_of_ofExpression (h : Polynomial.ofExpression maxDegree left = .ok p) :
    '=' ∉ left := by
  obtain ⟨post, hparse, _⟩ := exists_run_of_ofExpression h
  exact equals_not_mem_of_parsed hparse

/-- The text `0` is worth the polynomial without terms. -/
theorem ofExpression_zero [LawfulZero α] :
    Polynomial.ofExpression maxDegree ['0'] = .ok (Polynomial.zero : Polynomial α) := by
  have hvalue : Polynomial.ofExpression maxDegree ['0'] =
      .ok (Polynomial.constant (Coefficient.ofDecimal 0 0 : α)) := rfl
  have hdropped : Polynomial.constant (Coefficient.ofDecimal 0 0 : α) = Polynomial.zero := by
    refine Polynomial.eq_of_terms ?_
    show List.filter (fun t : Term α => !(t.2 == 0)) [(0, 0 + Coefficient.ofDecimal 0 0)] = []
    rw [List.filter_cons_of_neg (by rw [LawfulZero.zero_beq_zero]; decide), List.filter_nil]
  rw [hvalue, hdropped]

/-- **Sides.** The polynomial of an equation is the difference of its sides, also where the right
one is `0`. -/
theorem equationPolynomial_eq_minus [LawfulZero α]
    (hleft : Polynomial.ofExpression maxDegree left = .ok p)
    (hright : Polynomial.ofExpression maxDegree right = .ok q) :
    equationPolynomial maxDegree (left ++ '=' :: right) = .ok (p.minus q) := by
  rw [equationPolynomial, splitEquation_append_cons (not_mem_equals_of_ofExpression hleft)]
  by_cases hzero : right = ['0']
  · subst hzero
    rw [ofExpression_zero] at hright
    obtain rfl := Except.ok.inj hright
    rw [(Polynomial.reduced_of_ofExpression hleft).minus_zero]
    exact hleft
  · split
    · rename_i heq
      cases heq
    · rename_i heq
      cases heq
      exact absurd rfl hzero
    · rename_i heq
      cases heq
      rw [hleft, hright]
      rfl

/-- A text without `=` is an expression that is to be zero. -/
theorem equationPolynomial_of_not_mem (h : '=' ∉ left) :
    equationPolynomial maxDegree left = Polynomial.ofExpression (α := α) maxDegree left := by
  rw [equationPolynomial, splitEquation_of_not_mem h]

theorem equationPolynomial_difference (hleft : Polynomial.ofExpression maxDegree left = .ok p)
    (hright : Polynomial.ofExpression maxDegree right = .ok q) :
    equationPolynomial maxDegree ("(".toList ++ left ++ ")-(".toList ++ right ++ ")".toList) =
        .ok (p.minus q) := by
  have htext : "(".toList ++ left ++ ")-(".toList ++ right ++ ")".toList =
      operationText .sub left right := by
    simp [operationText, Token.source, Token.name, Operation.op, Op.symbol]
  have hsub := ofExpression_operationText .sub hleft hright
  rw [htext, equationPolynomial_of_not_mem (not_mem_equals_of_ofExpression hsub)]
  exact hsub

end

/-! ## §2  Solving -/

/-- **An equation is its difference.** If both sides are accepted for themselves, the equation has
the polynomial of the left side less that of the right, which need not be worked out if it is `0`,
and solving it is solving the difference written out in brackets: with the same roots, the same
infinity of them, or the same failure. -/
theorem solveEquation_eq_solveEquation_difference (s : SolverSettings Float)
    {left right : List Char} {p q : Polynomial Float}
    (hleft : Polynomial.ofExpression s.maxDegree left = .ok p)
    (hright : Polynomial.ofExpression s.maxDegree right = .ok q) :
    equationPolynomial s.maxDegree (left ++ '=' :: right) = .ok (p.minus q) ∧
      solveEquation s (left ++ '=' :: right) =
        solveEquation s ("(".toList ++ left ++ ")-(".toList ++ right ++ ")".toList) := by
  have hequation := equationPolynomial_eq_minus hleft hright
  have hdifference := equationPolynomial_difference hleft hright
  refine ⟨hequation, ?_⟩
  rw [solveEquation, solveEquation, hequation, hdifference]

/-- A right side `0`, which the equation does not look at, and the difference does. -/
theorem squareIsFour_solved :
    (∃ p q : Polynomial Float, Polynomial.ofExpression 256 "x^2-4".toList = .ok p ∧
      Polynomial.ofExpression 256 "0".toList = .ok q ∧
        equationPolynomial 256 "x^2-4=0".toList = .ok (p.minus q)) ∧
      solveEquation (.standard : SolverSettings Float) "x^2-4=0".toList =
        solveEquation .standard "(x^2-4)-(0)".toList := by
  obtain ⟨p, hp⟩ : ∃ p : Polynomial Float, Polynomial.ofExpression 256 "x^2-4".toList = .ok p :=
    exists_eq_ok_of_isOk (by decide +kernel)
  obtain ⟨q, hq⟩ : ∃ q : Polynomial Float, Polynomial.ofExpression 256 "0".toList = .ok q :=
    exists_eq_ok_of_isOk (by decide +kernel)
  have hsolved := solveEquation_eq_solveEquation_difference .standard hp hq
  exact ⟨⟨p, q, hp, hq, hsolved.1⟩, hsolved.2⟩

end InkAlgebra
