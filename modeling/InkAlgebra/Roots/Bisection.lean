import InkAlgebra.Polynomial.Basic
import InkAlgebra.Roots.Settings

/-!
# Closing in on a root

An interval with a sign change is halved until the value in its middle counts as zero, or until its
middle can no longer be told from an end. Intervals are half open: a root at the upper end belongs
to the next interval, unless there is none.
-/

namespace InkAlgebra.Polynomial

variable {α : Type} [Coefficient α]

/-- The number rounded to so many places, if that brings the value no further from zero. -/
def roundRoot (p : Polynomial α) (digits : Int32) (x : α) : α :=
  let rounded := Coefficient.roundTo digits x
  if Scalar.abs (p.eval rounded) ≤ Scalar.abs (p.eval x) then rounded else x

/-- Halves an interval with a given middle; nothing if the halvings run out. -/
def bisect (p : Polynomial α) (epsilon : α) : (halvings : Nat) → (low high middle : α) → Option α
  | 0, _, _, _ => none
  | n + 1, low, high, middle =>
    let value := p.eval middle
    if epsilon < Scalar.abs value then
      let (low, high) := if 0 < value * p.eval high then (low, middle) else (middle, high)
      let next := Scalar.half (low + high)
      if next == low || next == high then some next
      else bisect p epsilon n low high next
    else some middle

/-- The root in an interval, if its ends enclose one. A root at the lower end is returned as it is,
one at the upper end only on request. -/
def findRoot (p : Polynomial α) (lower upper : α) (includeUpper : Bool) (s : SolverSettings α) :
    Except (Halt (EquationError α)) (Option α) :=
  let isRoot x : Bool := Scalar.abs (p.eval x) ≤ s.epsilon
  let rounded x := s.digits.map fun digits => some (p.roundRoot digits x)
  if isRoot lower then .ok (some lower)
  else if isRoot upper then if includeUpper then rounded upper else .ok none
  else if 0 < p.eval lower * p.eval upper then .ok none
  else
    match p.bisect s.epsilon s.maxHalvings lower upper (Scalar.half (lower + upper)) with
    | some x => rounded x
    | none => .error (.unsolvable .noConvergence)

end InkAlgebra.Polynomial
