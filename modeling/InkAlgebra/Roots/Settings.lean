import InkAlgebra.Error
import InkAlgebra.Number.Scalar

/-!
# Settings of the root search

What counts as a root, and how much work may go into finding one. Every search has a budget of its
own, so that it ends on every kind of number: doubling steps while a root is being enclosed, halving
steps while it is closed in on.
-/

namespace InkAlgebra

structure SolverSettings (α : Type) where
  /-- A value of at most this size counts as zero. -/
  epsilon : α
  /-- The highest degree that a power may have and a polynomial to be solved. -/
  maxDegree : UInt32 := 256
  /-- Doubling steps towards an infinity before a root is enclosed. -/
  maxBracketSteps : UInt32 := 1024
  /-- Halving steps on an enclosing interval. There are fewer binary64 numbers, so that halving such
  an interval cannot use them up. -/
  maxHalvings : Nat := UInt64.size
deriving BEq, Repr

namespace SolverSettings

variable {α : Type} [Coefficient α]

def standard : SolverSettings α where
  epsilon := Coefficient.ofDecimal 1 (-5)

/-- Decimal places that roots are rounded to: one fewer than those of `epsilon`. Of the least word
there is none fewer, and the run breaks off. -/
def digits (s : SolverSettings α) : Except (Halt (EquationError α)) Int32 :=
  let decades := Coefficient.decades s.epsilon
  if decades = Int32.minValue then .error .overflow else .ok (decades - 1)

/-- Only an `epsilon` strictly between zero and one says how precise a root has to be. -/
def validate (s : SolverSettings α) : Except (EvaluationError α) Unit :=
  if 0 < s.epsilon ∧ s.epsilon < 1 then .ok () else .error (.epsilonOutOfRange s.epsilon)

end SolverSettings

end InkAlgebra
