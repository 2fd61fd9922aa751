import Mathlib
import InkAlgebra.Proofs.Polynomial.Growth
import InkAlgebra.Roots.Bracket

/-!
# Enclosing, in exact arithmetic

What the two searches on unbounded sides say. A point that is found lies on its side, with a sign
change on the way to it. That there is nothing to find is said only where the sign is already the
one far out, or, to the left, at a root.
-/

namespace InkAlgebra.Polynomial

open Exact

variable {K : Type} [Field K] [LinearOrder K] [IsStrictOrderedRing K]

/-- Steps of growing length that each lead to one side lead there together. -/
theorem rel_of_stepOut [FloorRing K] {r : K → K → Prop} [Std.Refl r] [IsTrans K r]
    {move : K → K → K} (hmove : ∀ x step, 0 ≤ step → r x (move x step)) {unchanged : K → Bool}
    {moves : ℕ} {step x y : K} (h : stepOut unchanged move moves step x = some y)
    (hstep : 0 ≤ step) : r x y := by
  induction moves generalizing step x with
  | zero =>
      rw [stepOut] at h
      split at h
      · cases h
      · cases h
        exact refl _
  | succ n ih =>
      rw [stepOut] at h
      split at h
      · have hdouble : (0 : K) ≤ step * Scalar.ofNat 2 := mul_nonneg hstep (Nat.cast_nonneg 2)
        exact IsTrans.trans _ _ _ (hmove x _ hdouble) (ih h hdouble)
      · cases h
        exact refl _

variable [FloorRing K] {p : Polynomial K} {s : SolverSettings K} {found : Option K}

theorem lowerBound_cases {upper : K} (h : p.lowerBound upper s = .ok found) :
    (found = none ∧ (0 < p.limitSign true * p.eval upper ∨ p.eval upper = 0)) ∨
      ∃ low, found = some low ∧ low ≤ upper ∧ p.eval low * p.eval upper ≤ 0 := by
  unfold lowerBound at h
  dsimp only at h
  split at h
  · rename_i hnone
    cases h
    refine .inl ⟨rfl, ?_⟩
    simpa using hnone
  · split at h
    · rename_i low hlow
      cases h
      have hle : low ≤ upper - 1 :=
        rel_of_stepOut (r := (· ≥ ·)) (fun x _ hstep => sub_le_self x hstep) hlow zero_le_one
      have hsign := unchanged_of_stepOut_eq_some hlow
      refine .inr ⟨low, rfl, by linarith, ?_⟩
      exact not_lt.1 (of_decide_eq_false hsign)
    · cases h

theorem upperBound_cases {lower : K} (h : p.upperBound lower s = .ok found) :
    (found = none ∧ 0 < p.limitSign false * p.eval lower) ∨
      ∃ high, found = some high ∧ lower ≤ high ∧ p.eval lower * p.eval high ≤ 0 := by
  unfold upperBound at h
  dsimp only at h
  split at h
  · rename_i hnone
    cases h
    exact .inl ⟨rfl, hnone⟩
  · split at h
    · rename_i high hhigh
      cases h
      have hle : lower + 1 ≤ high :=
        rel_of_stepOut (r := (· ≤ ·)) (fun _ _ hstep =>
          le_add_of_nonneg_right hstep) hhigh zero_le_one
      have hsign := unchanged_of_stepOut_eq_some hhigh
      refine .inr ⟨high, rfl, by linarith, ?_⟩
      exact not_lt.1 (of_decide_eq_false hsign)
    · cases h

end InkAlgebra.Polynomial
