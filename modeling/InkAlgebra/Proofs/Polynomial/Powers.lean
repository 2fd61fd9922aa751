import Mathlib
import InkAlgebra.Proofs.Polynomial.Formal

/-!
# Powers round by round

A power with a natural exponent is the product of as many copies of its base, also where it is
computed by squaring and multiplying, and where a constant base is raised as a number. Each round of
the computation leaves the power to the rounds that follow, and none of them breaks off, for what is
multiplied has no higher degree than the power, which the cap bounds.

§1 are copies, §2 is the power.
-/

open Polynomial

namespace InkAlgebra.Polynomial

open Exact

/-! ## §1  Copies -/

section

variable {K : Type} [Field K] [LinearOrder K]

/-- The product of a number of copies, one after the other. -/
def copies (p : Polynomial K) (n : ℕ) : Except (Halt (EquationError K)) (Polynomial K) :=
  (List.replicate n p).foldlM multiply (constant 1)

theorem copies_succ (p : Polynomial K) (n : ℕ) :
    copies p (n + 1) = copies p n >>= fun product => product.multiply p := by
  rw [copies, List.replicate_succ', List.foldlM_append]
  refine congrArg _ (funext fun product => ?_)
  rw [List.foldlM_cons]
  cases product.multiply p <;> rfl

/-- Where there is room for the degrees of all copies together, there is a product of them. -/
theorem exists_copies {p : Polynomial K} {n : ℕ} (h : p.degree.toNat * n < UInt32.size) :
    ∃ q, copies p n = .ok q ∧ q.degree.toNat ≤ p.degree.toNat * n ∧
      Denotes q (formalSum p.terms ^ n) := by
  induction n with
  | zero =>
      refine ⟨constant 1, rfl, (toNat_degree_constant 1).le.trans (Nat.zero_le _), ?_⟩
      rw [pow_zero, ← C_1]
      exact denotes_constant 1
  | succ n ih =>
      rw [Nat.mul_succ] at h ⊢
      obtain ⟨q, hq, hdegree, hdenotes⟩ := ih (by omega)
      obtain ⟨r, hr, hrdegree⟩ := exists_multiply_of_lt (p := q) (q := p) (by omega)
      refine ⟨r, ?_, by omega, ?_, ne_zero_of_multiply hr⟩
      · rw [copies_succ, hq]
        exact hr
      · rw [formalSum_multiply hr, hdenotes.formalSum_eq, pow_succ]

/-- What the computation of a power holds at the start. -/
def Raising.start (p : Polynomial K) (n : ℕ) : Raising K := ⟨constant 1, p, n⟩

theorem Raising.within_start (p : Polynomial K) (n : ℕ) :
    (start p n).Within (p.degree.toNat * n) p := by
  refine ⟨?_, .inl rfl⟩
  show (constant 1 : Polynomial K).degree.toNat + p.degree.toNat * n ≤ p.degree.toNat * n
  rw [toNat_degree_constant, zero_add]

/-- Squaring and multiplying comes to the product of the copies. -/
theorem Raising.result_start {p : Polynomial K} {n : ℕ} (h : p.degree.toNat * n < UInt32.size) :
    (start p n).result = copies p n := by
  have hfit : (constant 1 : Polynomial K).degree.toNat + p.degree.toNat * n < UInt32.size := by
    rwa [toNat_degree_constant, zero_add]
  obtain ⟨q, hq, _, hdenotes⟩ := exists_copies h
  obtain ⟨r, hr, _⟩ := exists_raise_of_lt hfit
  have hraise := (denotes_constant 1).raise hfit hr
  rw [C_1, one_mul] at hraise
  rw [hq, ← hraise.eq hdenotes]
  exact hr

/-- A constant polynomial is the constant that it has at degree zero. -/
theorem formalSum_of_isConstant {p : Polynomial K} (h : p.isConstant = true) :
    formalSum p.terms = C (p.coefficient 0) := by
  have hzero : ∀ t ∈ p.terms, t.1 = 0 := by
    intro t ht
    apply UInt32.toNat_inj.1
    exact Nat.le_zero.1 ((le_degree ht).trans_eq (toNat_degree_eq_zero h))
  obtain ⟨terms, hascending⟩ := p
  match terms, hascending with
  | [], _ => exact C_0.symm
  | [(d, c)], _ =>
      obtain rfl : d = 0 := hzero (d, c) List.mem_cons_self
      rw [formalSum_cons, formalSum_nil, add_zero]
      rfl
  | s :: t :: rest, hascending =>
      -- the second of two ascending terms has a degree
      have hs := hzero s List.mem_cons_self
      have ht := hzero t (List.mem_cons_of_mem s List.mem_cons_self)
      have hlt := (List.pairwise_cons.1 hascending).1 t List.mem_cons_self
      rw [hs, ht] at hlt
      exact absurd hlt (UInt32.lt_irrefl 0)

theorem constant_pow {p : Polynomial K} (h : p.isConstant = true) (n : ℕ) :
    .ok (constant (p.coefficient 0 ^ n)) = copies p n := by
  have hroom : p.degree.toNat * n < UInt32.size := by
    rw [toNat_degree_eq_zero h, zero_mul]
    decide
  obtain ⟨q, hq, _, hdenotes⟩ := exists_copies hroom
  rw [formalSum_of_isConstant h, ← C_pow] at hdenotes
  rw [hq, hdenotes.eq (denotes_constant _)]

end

/-! ## §2  Powers -/

section

variable {K : Type} [Field K] [LinearOrder K] [FloorRing K] [IsStrictOrderedRing K]

theorem toCount_natCast (n : ℕ) : Coefficient.toCount (n : K) = min n (2 ^ 64 - 1) := by
  show min ⌊(n : K)⌋.toNat (2 ^ 64 - 1) = min n (2 ^ 64 - 1)
  rw [Int.floor_natCast, Int.toNat_natCast]

/-- What a power with a natural exponent comes to. -/
theorem power_constant_natCast (p : Polynomial K) (n : ℕ) (cap : UInt32) :
    p.power (constant (n : K)) cap =
      if p.isConstant = true ∨ p.degree.toNat * n ≤ cap.toNat then copies p n
      else .error (.tooComplex ⟨min (p.degree.toNat * n) (2 ^ 64 - 1), cap.toNat⟩) := by
  have hconstant : (constant (n : K)).isConstant = true :=
    (denotes_constant (n : K)).isConstant_iff.2 (natDegree_C _)
  have hexponent : (constant (n : K)).coefficient 0 = n := by
    rw [(denotes_constant (n : K)).coefficient]
    exact coeff_C_zero
  have hwhole : Coefficient.isWhole (n : K) = true :=
    decide_eq_true (by rw [Int.floor_natCast, Int.cast_natCast])
  have hnonneg : ¬ (n : K) < 0 := not_lt_of_ge (Nat.cast_nonneg n)
  have hdegree : (Scalar.ofNat p.degree.toNat : K) * (n : K) = ((p.degree.toNat * n : ℕ) : K) :=
    (Nat.cast_mul _ _).symm
  have hover : (Scalar.ofNat cap.toNat : K) < ((p.degree.toNat * n : ℕ) : K) ↔
      ¬ p.degree.toNat * n ≤ cap.toNat :=
    Nat.cast_lt.trans not_le.symm
  unfold power
  dsimp only
  rw [hexponent, hconstant, hwhole, if_neg (by decide), if_neg (by decide), if_neg hnonneg, hdegree,
    toCount_natCast]
  by_cases hbase : p.isConstant = true
  · rw [if_pos hbase, if_pos (.inl hbase), pow_natCast, constant_pow hbase]
  rw [if_neg hbase]
  by_cases hle : p.degree.toNat * n ≤ cap.toNat
  · rw [if_neg (mt hover.1 (not_not_intro hle)), if_pos (.inr hle)]
    have hpos : 0 < p.degree.toNat := toNat_degree_pos (Bool.eq_false_iff.2 hbase)
    have hroom : p.degree.toNat * n < UInt32.size := hle.trans_lt cap.toNat_lt
    have hcount : Coefficient.toCount (n : K) = n :=
      LawfulWhole.toCount_ofNat ((Nat.le_mul_of_pos_left n hpos).trans_lt hroom)
    rw [hcount]
    exact Raising.result_start hroom
  · rw [if_pos (hover.2 hle), if_neg (not_or.2 ⟨hbase, hle⟩)]

/-- **Powers.** For an exponent that is a natural number the power is the product of as many copies,
and it fails exactly where the base has a degree that the exponent takes over the cap; the degree is
then reported as far as a 64-bit count goes. Where there is room for all copies, which is the case
within the cap, every round of the computation leaves the power to the rounds that follow, the last
has it, and none holds an accumulated product or a square of a higher degree. -/
theorem power_natCast (p : Polynomial K) (n : ℕ) (cap : UInt32) :
    (p.isConstant = true ∨ p.degree.toNat * n ≤ cap.toNat →
      ∃ q, copies p n = .ok q ∧ p.power (constant (n : K)) cap = .ok q) ∧
    (¬ (p.isConstant = true ∨ p.degree.toNat * n ≤ cap.toNat) →
      p.power (constant (n : K)) cap =
        .error (.tooComplex ⟨min (p.degree.toNat * n) (2 ^ 64 - 1), cap.toNat⟩)) ∧
    (p.degree.toNat * n < UInt32.size →
      ∃ rounds last, (Raising.start p n).after rounds = .ok last ∧ last.left = 0 ∧
        copies p n = .ok last.accumulated ∧
        ∀ k ≤ rounds, ∃ s, (Raising.start p n).after k = .ok s ∧
          s.result = copies p n ∧
          s.accumulated.degree.toNat ≤ p.degree.toNat * n ∧
          (s.base = p ∨ s.base.degree.toNat ≤ p.degree.toNat * n)) := by
  refine ⟨?_, ?_, ?_⟩
  · intro hcap
    have hroom : p.degree.toNat * n < UInt32.size := by
      rcases hcap with hbase | hle
      · rw [toNat_degree_eq_zero hbase, zero_mul]
        decide
      · exact hle.trans_lt cap.toNat_lt
    obtain ⟨q, hq, _⟩ := exists_copies hroom
    exact ⟨q, hq, by rw [power_constant_natCast, if_pos hcap, hq]⟩
  · intro hcap
    rw [power_constant_natCast, if_neg hcap]
  · intro hroom
    have hwithin := Raising.within_start p n
    obtain ⟨last, hlast, _, hleft, hresult⟩ := hwithin.exists_last hroom
    refine ⟨n, last, hlast, hleft, (Raising.result_start hroom).symm.trans hresult, ?_⟩
    intro k _
    obtain ⟨s, hs, hwithin', _, hresult'⟩ := hwithin.exists_after hroom k
    exact ⟨s, hs, hresult'.trans (Raising.result_start hroom),
      (Nat.le_add_right _ _).trans hwithin'.accumulated_le, hwithin'.base_le⟩

/-- A cube within the cap, and a power of a square beyond it. -/
theorem power_within_and_beyond_cap :
    (∃ q, copies (ofTerms [(0, (1 : ℚ)), (1, 1)]) 3 = .ok q ∧
      (ofTerms [(0, (1 : ℚ)), (1, 1)]).power (constant ((3 : ℕ) : ℚ)) 256 = .ok q) ∧
    (ofTerms [(2, (1 : ℚ))]).power (constant ((200 : ℕ) : ℚ)) 256 =
      .error (.tooComplex ⟨400, 256⟩) := by
  have hlinear : (ofTerms [(0, (1 : ℚ)), (1, 1)]).degree.toNat = 1 := by decide +kernel
  have hsquare : (ofTerms [(2, (1 : ℚ))]).degree.toNat = 2 := by decide +kernel
  have hconstant : (ofTerms [(2, (1 : ℚ))]).isConstant = false := by decide +kernel
  constructor
  · refine (power_natCast _ 3 256).1 (.inr ?_)
    rw [hlinear]
    decide
  · have hbeyond := (power_natCast (ofTerms [(2, (1 : ℚ))]) 200 256).2.1
    rw [hsquare, hconstant] at hbeyond
    exact hbeyond (by decide)

/-- A degree of more than 64 bits is not the one that is reported. -/
theorem power_reports_largest_count :
    (indeterminate : Polynomial ℚ).power (constant ((10 ^ 20 : ℕ) : ℚ)) 256 =
      .error (.tooComplex ⟨18446744073709551615, 256⟩) ∧
    (indeterminate : Polynomial ℚ).power (constant ((10 ^ 20 : ℕ) : ℚ)) 256 ≠
      .error (.tooComplex ⟨(indeterminate : Polynomial ℚ).degree.toNat * 10 ^ 20, 256⟩) := by
  have hdegree : (indeterminate : Polynomial ℚ).degree.toNat = 1 := by decide +kernel
  have hconstant : (indeterminate : Polynomial ℚ).isConstant = false := by decide +kernel
  have hpower : (indeterminate : Polynomial ℚ).power (constant ((10 ^ 20 : ℕ) : ℚ)) 256 =
      .error (.tooComplex ⟨18446744073709551615, 256⟩) := by
    rw [power_constant_natCast, hdegree, hconstant, if_neg (by decide)]
    rfl
  refine ⟨hpower, ?_⟩
  rw [hpower, hdegree]
  intro h
  injection h with h
  injection h with h
  injection h with h
  exact absurd h (by decide)

end

end InkAlgebra.Polynomial
