import Mathlib
import InkAlgebra.Proofs.Number.Extended
import InkAlgebra.Proofs.Polynomial.Reduced
import InkAlgebra.Proofs.Roots.Bracket

/-!
# Enclosing ends

The searches on unbounded sides go out in doubling steps until the sign has changed. In exact
arithmetic they come to what they should: where the sign differs from the one far out, some number
of moves is enough, every larger budget finds the same point, and every smaller one fails. The sign
far out is the one that evaluation reports at an infinity, which exact arithmetic has where it is
extended by two.

§1 is evaluation at infinities, §2 going out, §3 the two searches.
-/

namespace InkAlgebra.Polynomial

open Exact

/-! ## §1  At infinities -/

section

variable {K : Type} [Field K] [LinearOrder K] (p : Polynomial K)

/-- The polynomial with its coefficients as numbers that infinities stand beside. -/
def extended : Polynomial (Extended K) where
  terms := p.terms.map fun t => (t.1, .finite t.2)
  ascending := p.ascending.map _ fun _ _ h => h

theorem limitSign_extended (left : Bool) :
    p.extended.limitSign left = .finite (p.limitSign left) := by
  have hsign : ∀ c : K, Scalar.sign (Extended.finite c) = .finite (Scalar.sign c) := by
    intro c
    have hneg : (Extended.finite c < 0) = (decide (c < 0) = true) := rfl
    have hpos : ((0 : Extended K) < Extended.finite c) = (decide (0 < c) = true) := rfl
    unfold Scalar.sign
    simp only [hneg, hpos, decide_eq_true_eq]
    split_ifs <;> rfl
  have hleading : p.extended.leading? = p.leading?.map fun t => (t.1, .finite t.2) :=
    List.getLast?_map
  unfold limitSign
  rw [hleading]
  cases p.leading? with
  | none => rfl
  | some t =>
      dsimp only [Option.map_some]
      rw [hsign]
      split <;> rfl

variable [FloorRing K]

/-- At finite numbers its values are the same. -/
theorem eval_extended_finite (x : K) : p.extended.eval (.finite x) = .finite (p.eval x) := by
  have hfold : ∀ (terms : List (Term K)) (sum : K),
      (terms.map fun t => (t.1, Extended.finite t.2)).foldl
          (fun sum t => sum + t.2 * Coefficient.pow (.finite x) (Scalar.ofNat t.1.toNat))
          (.finite sum) =
        Extended.finite (terms.foldl (fun sum t =>
            sum + t.2 * Coefficient.pow x (Scalar.ofNat t.1.toNat)) sum) := by
    intro terms
    induction terms with
    | nil => exact fun sum => rfl
    | cons t rest ih => exact fun sum => ih _
  exact hfold p.terms (-0)

/-- At an infinity the value is the infinity of the sign that the polynomial ends up with there. -/
theorem eval_extended_infinite {left : Bool} (h : p.limitSign left ≠ 0) :
    p.extended.eval (.infinite left) = .infinite (decide (p.limitSign left < 0)) := by
  have hzero : p.extended.isZero = false := by
    rw [Bool.eq_false_iff]
    intro hzero
    have hnil : p.terms = [] := List.map_eq_nil_iff.1 (List.isEmpty_iff.1 hzero)
    apply h
    unfold limitSign leading?
    rw [hnil]
    rfl
  have hside : decide (Extended.infinite left < (0 : Extended K)) = left := Bool.decide_coe left
  unfold eval
  rw [if_pos (show Coefficient.isInfinite (Extended.infinite left : Extended K) = true from rfl),
    hzero, if_neg Bool.false_ne_true, hside, limitSign_extended]
  show Extended.mul (.finite (p.limitSign left)) (.infinite false) = _
  rw [Extended.mul, if_neg h, Bool.false_xor]

/-- Whether the value at a number is not zero and has the sign that evaluation reports at an
infinity. -/
def EndsLike (left : Bool) (x : K) : Prop :=
  p.eval x ≠ 0 ∧ p.extended.eval (.infinite left) = .infinite (decide (p.eval x < 0))

variable {p} [IsStrictOrderedRing K]

omit [FloorRing K] in
theorem limitSign_ne_zero (hp : p.Reduced) (hdegree : p.isConstant = false) (left : Bool) :
    p.limitSign left ≠ 0 := by
  unfold limitSign
  cases hlead : p.leading? with
  | none =>
      have hzero : p.degree = 0 := by rw [degree, hlead]
      exact absurd (decide_eq_true hzero) (by rw [← isConstant, hdegree]; decide)
  | some t =>
      obtain ⟨d, c⟩ := t
      have hc : c ≠ 0 := by simpa using hp (d, c) (List.mem_of_getLast? hlead)
      have hsign : Scalar.sign c ≠ 0 := left_ne_zero_of_mul (sign_mul_self_pos hc).ne'
      dsimp only
      split
      · exact neg_ne_zero.2 hsign
      · exact hsign

theorem endsLike_iff {left : Bool} (h : p.limitSign left ≠ 0) (x : K) :
    p.EndsLike left x ↔ 0 < p.limitSign left * p.eval x := by
  have hinjective : ∀ a b : Bool, Extended.infinite (K := K) a = .infinite b ↔ a = b := by
    intro a b
    exact ⟨Extended.infinite.inj, congrArg _⟩
  unfold EndsLike
  rw [eval_extended_infinite p h, hinjective, decide_eq_decide, mul_pos_iff]
  constructor
  · rintro ⟨hx, hsides⟩
    rcases lt_or_gt_of_ne h with hsign | hsign
    · exact .inr ⟨hsign, hsides.1 hsign⟩
    · exact .inl ⟨hsign, lt_of_le_of_ne (not_lt.1 (mt hsides.2 hsign.not_gt)) hx.symm⟩
  · rintro (⟨hsign, hx⟩ | ⟨hsign, hx⟩)
    · exact ⟨hx.ne', iff_of_false hsign.not_gt hx.not_gt⟩
    · exact ⟨hx.ne, iff_of_true hsign hx⟩

end

/-! ## §2  Going out -/

section

variable {K : Type} [Field K]

/-- The point that so many doubling steps lead to, on the side of the direction. -/
def steppedOut (direction step x : K) (n : ℕ) : K :=
  x + direction * (step * ((2 : ℕ) ^ (n + 1) - (2 : ℕ)))

theorem steppedOut_eq (direction step x : K) (n : ℕ) :
    steppedOut direction step x n = x + direction * (step * (2 ^ (n + 1) - 2)) := by
  unfold steppedOut
  rw [Nat.cast_ofNat]

theorem steppedOut_zero (direction step x : K) : steppedOut direction step x 0 = x := by
  simp only [steppedOut_eq]
  ring

theorem steppedOut_succ (direction step x : K) (n : ℕ) :
    steppedOut direction step x (n + 1) = steppedOut direction (step * 2)
        (x + direction * (step * 2)) n := by
  simp only [steppedOut_eq]
  ring

variable [LinearOrder K] [FloorRing K] {move : K → K → K} {direction : K} {unchanged : K → Bool}

/-- **Going out** leads to the first of the points where the sign has changed, if the moves
suffice. -/
theorem stepOut_eq (hmove : ∀ x step, move x step = x + direction * step) {first : ℕ} {step x : K}
    (hbefore : ∀ n < first, unchanged (steppedOut direction step x n) = true)
    (hfirst : unchanged (steppedOut direction step x first) = false) (moves : ℕ) :
    stepOut unchanged move moves step x =
      if first ≤ moves then some (steppedOut direction step x first) else none := by
  induction first generalizing step x moves with
  | zero =>
      rw [steppedOut_zero] at hfirst ⊢
      have hx : ¬ unchanged x = true := by
        rw [hfirst]
        exact Bool.false_ne_true
      rw [if_pos (Nat.zero_le moves), stepOut.eq_def]
      exact if_neg hx
  | succ first ih =>
      have hx : unchanged x = true := by
        have h := hbefore 0 (Nat.succ_pos first)
        rwa [steppedOut_zero] at h
      cases moves with
      | zero => rw [stepOut, if_pos hx, if_neg (Nat.not_succ_le_zero first)]
      | succ moves =>
          have hmoved : move x (step * Scalar.ofNat 2) = x + direction * (step * 2) := hmove _ _
          have hdouble : step * Scalar.ofNat 2 = step * 2 := rfl
          rw [steppedOut_succ] at hfirst ⊢
          have hrest := ih (fun n hn => by
            rw [← steppedOut_succ]
            exact hbefore (n + 1) (Nat.succ_lt_succ hn)) hfirst moves
          rw [stepOut, if_pos hx]
          simp only [Nat.succ_le_succ_iff]
          rw [← hrest, ← hmoved]
          rfl

variable (unchanged) in
/-- If one of the points is past the change of sign, there is a number of moves from which on the
search finds the same point, and below which it finds none. -/
theorem exists_stepOut_eq (hmove : ∀ x step, move x step = x + direction * step) {step x : K}
    (hchanged : ∃ n, unchanged (steppedOut direction step x n) = false) :
    ∃ first, unchanged (steppedOut direction step x first) = false ∧ ∀ moves,
      stepOut unchanged move moves step x =
        if first ≤ moves then some (steppedOut direction step x first) else none := by
  classical
  refine ⟨Nat.find hchanged, Nat.find_spec hchanged, ?_⟩
  apply stepOut_eq hmove
  · intro n hn
    exact Bool.eq_true_of_not_eq_false (Nat.find_min hchanged hn)
  · exact Nat.find_spec hchanged

variable [IsStrictOrderedRing K]

/-- The points leave every bound behind. -/
theorem exists_le_two_pow (bound : K) : ∃ n : ℕ, bound ≤ 2 ^ (n + 1) - 1 := by
  obtain ⟨n, hn⟩ := exists_nat_gt bound
  refine ⟨n, ?_⟩
  have hpower : (n : K) + 1 ≤ 2 ^ (n + 1) := by
    have : n + 1 ≤ 2 ^ (n + 1) := (Nat.lt_two_pow_self).le
    exact_mod_cast this
  linarith

end

/-! ## §3  The searches -/

section

variable {K : Type} [Field K] [LinearOrder K] [IsStrictOrderedRing K]
  [FloorRing K] {p : Polynomial K}

omit [FloorRing K] in
/-- A value whose sign is not the one far out is not on the side of the values there. -/
theorem mul_nonpos_of_far {sign value far : K} (hvalue : ¬ 0 < sign * value)
    (hfar : 0 < far * sign) :
    value * far ≤ 0 := by
  rw [← not_lt]
  intro hsame
  exact hvalue (mul_pos_of_mul_pos (mul_comm far sign ▸ hfar) hsame)

omit [IsStrictOrderedRing K] in
/-- Where the value at some point on the way has another sign than at the start, or is zero, going
out finds one. -/
theorem exists_stepOut_of_mul_nonpos {c direction : K} (move : K → K → K)
    (hmove : ∀ x step, move x step = x + direction * step)
    (hfar : ∃ n, p.eval c * p.eval (steppedOut direction 1 (c + direction) n) ≤ 0) :
    ∃ first, p.eval c * p.eval (steppedOut direction 1 (c + direction) first) ≤ 0 ∧ ∀ moves,
      stepOut (fun x => decide (0 < p.eval c * p.eval x)) move moves 1 (c + direction) =
        if first ≤ moves then some (steppedOut direction 1 (c + direction) first) else none := by
  obtain ⟨first, hfirst, hsearch⟩ :=
    exists_stepOut_eq (fun x => decide (0 < p.eval c * p.eval x)) hmove
      (hfar.imp fun n hn => decide_eq_false (not_lt.2 hn))
  exact ⟨first, not_lt.1 (of_decide_eq_false hfirst), hsearch⟩

theorem lowerBound_eq_none_iff {c : K} {s : SolverSettings K} :
    p.lowerBound c s = .ok none ↔ p.eval c = 0 ∨ 0 < p.limitSign true * p.eval c := by
  constructor
  · intro h
    rcases lowerBound_cases h with ⟨_, hsign | hzero⟩ | ⟨low, hlow, _⟩
    · exact .inr hsign
    · exact .inl hzero
    · cases hlow
  · intro h
    unfold lowerBound
    dsimp only
    rw [if_pos]
    simpa [or_comm] using h

theorem upperBound_eq_none_iff {c : K} {s : SolverSettings K} :
    p.upperBound c s = .ok none ↔ 0 < p.limitSign false * p.eval c := by
  constructor
  · intro h
    rcases upperBound_cases h with ⟨_, hsign⟩ | ⟨high, hhigh, _⟩
    · exact hsign
    · cases hhigh
  · intro h
    unfold upperBound
    exact if_pos h

/-- **To the left.** Unless there is nothing to find, a budget of moves that suffices finds what
every larger one does, and a smaller one fails. -/
theorem exists_lowerBound_eq {c : K} (hlimit : p.limitSign true ≠ 0) (hvalue : p.eval c ≠ 0)
    (hsign : ¬ 0 < p.limitSign true * p.eval c) :
    ∃ (moves : ℕ) (low : K), low < c ∧ p.eval low * p.eval c ≤ 0 ∧ ∀ s : SolverSettings K,
      p.lowerBound c s =
        if moves ≤ s.maxBracketSteps.toNat then .ok (some low) else .error .noConvergence := by
  obtain ⟨bound, hbound⟩ := exists_forall_limitSign_left hlimit
  have hfar : ∃ n, p.eval c * p.eval (steppedOut (-1) 1 (c + -1) n) ≤ 0 := by
    obtain ⟨n, hn⟩ := exists_le_two_pow (c - bound)
    refine ⟨n, mul_nonpos_of_far hsign (hbound _ ?_)⟩
    rw [steppedOut_eq]
    linarith
  obtain ⟨first, hfirst, hsearch⟩ :=
    exists_stepOut_of_mul_nonpos (· - ·) (fun x step => by ring) hfar
  refine ⟨first, steppedOut (-1) 1 (c + -1) first, ?_, ?_, ?_⟩
  · have hpower : (1 : K) < 2 ^ (first + 1) := one_lt_pow₀ one_lt_two (Nat.succ_ne_zero first)
    rw [steppedOut_eq]
    linarith
  · rwa [mul_comm]
  · intro s
    have hguard : ¬ (decide (0 < p.limitSign true * p.eval c) || p.eval c == 0) = true := by
      simpa using ⟨not_lt.1 hsign, hvalue⟩
    unfold lowerBound
    dsimp only
    rw [if_neg hguard, sub_eq_add_neg]
    simp only [mul_comm _ (p.eval c)]
    rw [hsearch]
    by_cases h : first ≤ s.maxBracketSteps.toNat
    · rw [if_pos h, if_pos h]
    · rw [if_neg h, if_neg h]

/-- **To the right** likewise. -/
theorem exists_upperBound_eq {c : K} (hlimit : p.limitSign false ≠ 0)
    (hsign : ¬ 0 < p.limitSign false * p.eval c) :
    ∃ (moves : ℕ) (high : K), c < high ∧ p.eval high * p.eval c ≤ 0 ∧ ∀ s : SolverSettings K,
      p.upperBound c s =
        if moves ≤ s.maxBracketSteps.toNat then .ok (some high) else .error .noConvergence := by
  obtain ⟨bound, hbound⟩ := exists_forall_limitSign_right hlimit
  have hfar : ∃ n, p.eval c * p.eval (steppedOut 1 1 (c + 1) n) ≤ 0 := by
    obtain ⟨n, hn⟩ := exists_le_two_pow (bound - c)
    refine ⟨n, mul_nonpos_of_far hsign (hbound _ ?_)⟩
    rw [steppedOut_eq]
    linarith
  obtain ⟨first, hfirst, hsearch⟩ :=
    exists_stepOut_of_mul_nonpos (· + ·) (fun x step => by ring) hfar
  refine ⟨first, steppedOut 1 1 (c + 1) first, ?_, ?_, ?_⟩
  · have hpower : (1 : K) < 2 ^ (first + 1) := one_lt_pow₀ one_lt_two (Nat.succ_ne_zero first)
    rw [steppedOut_eq]
    linarith
  · rwa [mul_comm]
  · intro s
    unfold upperBound
    dsimp only
    rw [if_neg hsign, hsearch]
    by_cases h : first ≤ s.maxBracketSteps.toNat
    · rw [if_pos h, if_pos h]
    · rw [if_neg h, if_neg h]

omit [IsStrictOrderedRing K] in
/-- A root to start from is enclosed at once to its right. -/
theorem upperBound_of_eval_eq_zero {c : K} (hvalue : p.eval c = 0) (s : SolverSettings K) :
    p.upperBound c s = .ok (some (c + 1)) := by
  unfold upperBound
  dsimp only
  rw [hvalue, mul_zero, if_neg (lt_irrefl _), stepOut.eq_def]
  simp only [zero_mul, lt_irrefl, decide_false, Bool.false_eq_true, if_false]

/-- **Searching on unbounded sides.** What evaluation reports at an infinity is the sign of all
values far enough out. To the left there is nothing to find exactly at a root or where the sign is
that one already; else a budget of moves that suffices finds a point with a change of sign on the
way to it, the same for every larger budget, and a smaller one fails. To the right likewise, but
that a root is enclosed by a step to its right. -/
theorem searches_outward (hp : p.Reduced) (hdegree : p.isConstant = false) (c : K) :
    ((∃ bound, ∀ x ≤ bound, p.EndsLike true x) ∧ (∃ bound, ∀ x, bound ≤ x → p.EndsLike false x)) ∧
    (∀ s, p.lowerBound c s = .ok none ↔ p.eval c = 0 ∨ p.EndsLike true c) ∧
    (¬ (p.eval c = 0 ∨ p.EndsLike true c) →
      ∃ (moves : ℕ) (low : K), low < c ∧ p.eval low * p.eval c ≤ 0 ∧ ∀ s : SolverSettings K,
        p.lowerBound c s =
          if moves ≤ s.maxBracketSteps.toNat then .ok (some low) else .error .noConvergence) ∧
    (∀ s, p.upperBound c s = .ok none ↔ p.EndsLike false c) ∧
    (p.eval c = 0 → ∀ s, p.upperBound c s = .ok (some (c + 1))) ∧
    (¬ p.EndsLike false c →
      ∃ (moves : ℕ) (high : K), c < high ∧ p.eval high * p.eval c ≤ 0 ∧ ∀ s : SolverSettings K,
        p.upperBound c s =
          if moves ≤ s.maxBracketSteps.toNat then .ok (some high) else .error .noConvergence) := by
  have hleft := limitSign_ne_zero hp hdegree true
  have hright := limitSign_ne_zero hp hdegree false
  simp only [endsLike_iff hleft, endsLike_iff hright]
  refine ⟨⟨?_, ?_⟩, fun s => lowerBound_eq_none_iff, ?_, fun s => upperBound_eq_none_iff,
    upperBound_of_eval_eq_zero, exists_upperBound_eq hright⟩
  · obtain ⟨bound, hbound⟩ := exists_forall_limitSign_left hleft
    exact ⟨bound, fun x hx => mul_comm (p.eval x) _ ▸ hbound x hx⟩
  · obtain ⟨bound, hbound⟩ := exists_forall_limitSign_right hright
    exact ⟨bound, fun x hx => mul_comm (p.eval x) _ ▸ hbound x hx⟩
  · intro hnone
    obtain ⟨hvalue, hsign⟩ := not_or.1 hnone
    exact exists_lowerBound_eq hleft hvalue hsign

/-- Between the roots of `x ^ 2 - 100` both searches have something to find. -/
theorem searches_outward_between_roots :
    (ofTerms [(0, (-100 : ℚ)), (2, 1)]).Reduced ∧
      (ofTerms [(0, (-100 : ℚ)), (2, 1)]).isConstant = false ∧
    ∃ (moves : ℕ) (low : ℚ), low < 0 ∧
      (ofTerms [(0, (-100 : ℚ)), (2, 1)]).eval low *
        (ofTerms [(0, (-100 : ℚ)), (2, 1)]).eval 0 ≤ 0 ∧
      ∀ s : SolverSettings ℚ, (ofTerms [(0, (-100 : ℚ)), (2, 1)]).lowerBound 0 s =
        if moves ≤ s.maxBracketSteps.toNat then .ok (some low) else .error .noConvergence := by
  have hdegree : (ofTerms [(0, (-100 : ℚ)), (2, 1)]).isConstant = false := by decide +kernel
  refine ⟨reduced_ofTerms _, hdegree, (searches_outward (reduced_ofTerms _) hdegree 0).2.2.1 ?_⟩
  rintro (hvalue | ⟨_, hsign⟩)
  · exact absurd hvalue (by decide +kernel)
  · exact absurd hsign (by decide +kernel)

end

end InkAlgebra.Polynomial
