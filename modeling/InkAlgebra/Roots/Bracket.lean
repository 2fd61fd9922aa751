import InkAlgebra.Polynomial.Basic
import InkAlgebra.Roots.Settings

/-!
# Enclosing a root on an unbounded side

Left of a point there is a root if the sign at the point is not the sign that the polynomial ends up
with far to the left; it is enclosed by going left in steps that double until the sign has changed.
To the right likewise. Signs are compared through products, and a product that is not positive
counts as a change.
-/

namespace InkAlgebra.Polynomial

variable {α : Type} [Coefficient α]

/-- The first of the points `x, move x (2 * step), …` where the sign has changed, within a number of
moves. A point that is no longer finite is the last one tried. -/
def stepOut (unchanged : α → Bool) (move : α → α → α) : (moves : Nat) → (step x : α) → Option α
  | moves, step, x =>
    if unchanged x then
      match moves with
      | 0 => none
      | n + 1 =>
        if Coefficient.isFinite x then
          let step := step * Scalar.ofNat 2
          stepOut unchanged move n step (move x step)
        else none
    else some x

/-- A search that ends, ends where the sign has changed. -/
theorem unchanged_of_stepOut_eq_some {unchanged : α → Bool} {move : α → α → α} {moves : Nat}
    {step x y : α} (h : stepOut unchanged move moves step x = some y) : unchanged y = false := by
  induction moves generalizing step x with
  | zero =>
    rw [stepOut] at h
    split at h
    · cases h
    · rename_i hx
      cases h
      exact Bool.eq_false_iff.2 hx
  | succ n ih =>
    rw [stepOut] at h
    split at h
    · split at h
      · exact ih h
      · cases h
    · rename_i hx
      cases h
      exact Bool.eq_false_iff.2 hx

/-- A point left of `upper` with a sign change between them. There is none if the sign at `upper` is
the one far to the left, or if `upper` is itself a root. -/
def lowerBound (p : Polynomial α) (upper : α) (s : SolverSettings α) :
    Except (EvaluationError α) (Option α) :=
  let value := p.eval upper
  if 0 < p.limitSign true * value || value == 0 then .ok none
  else
    match stepOut (fun x => 0 < p.eval x * value) (· - ·) s.maxBracketSteps.toNat 1 (upper - 1) with
    | some lower => .ok (some lower)
    | none => .error .noConvergence

/-- A point right of `lower` with a sign change between them; a root at `lower` counts as one. There
is none if the sign at `lower` is the one far to the right. -/
def upperBound (p : Polynomial α) (lower : α) (s : SolverSettings α) :
    Except (EvaluationError α) (Option α) :=
  let value := p.eval lower
  if 0 < p.limitSign false * value then .ok none
  else
    match stepOut (fun x => 0 < value * p.eval x) (· + ·) s.maxBracketSteps.toNat 1 (lower + 1) with
    | some upper => .ok (some upper)
    | none => .error .noConvergence

theorem eq_noConvergence_of_lowerBound {p : Polynomial α} {s : SolverSettings α} {upper : α}
    {e : EvaluationError α} (h : p.lowerBound upper s = .error e) : e = .noConvergence := by
  unfold lowerBound at h
  dsimp only at h
  split at h
  · cases h
  · split at h
    · cases h
    · exact (Except.error.inj h).symm

theorem eq_noConvergence_of_upperBound {p : Polynomial α} {s : SolverSettings α} {lower : α}
    {e : EvaluationError α} (h : p.upperBound lower s = .error e) : e = .noConvergence := by
  unfold upperBound at h
  dsimp only at h
  split at h
  · cases h
  · split at h
    · cases h
    · exact (Except.error.inj h).symm

end InkAlgebra.Polynomial
