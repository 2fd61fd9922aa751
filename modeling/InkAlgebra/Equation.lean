import InkAlgebra.Polynomial.Parse
import InkAlgebra.Roots.Solve

/-!
# Equations

An equation is two expressions with `=` between them, or one expression that is to be zero. It is
solved as the difference of its sides; its unknown is the one letter that occurs in it.
-/

namespace InkAlgebra

/-- An equation divided at its first `=`; what follows a later one stays in the right side. -/
def splitEquation (text : List Char) : List Char × Option (List Char) :=
  (text.takeWhile (· ≠ '='), match text.dropWhile (· ≠ '=') with
    | [] => none
    | _ :: right => some right)

/-- An equation in its unknown, the first letter in it, as one in `x`. An equation without
letters has no unknown; a second letter is not supported. -/
def inOneUnknown {α : Type} (text : List Char) :
    Except (EvaluationError α) (List Char × Option Char) :=
  match text.find? isLetter with
  | none => .ok (text, none)
  | some unknown =>
    if text.all fun c => !isLetter c || c = unknown then
      .ok (text.map fun c => if c = unknown then 'x' else c, some unknown)
    else .error .severalVariables

variable {α : Type} [Coefficient α]

/-- The polynomial that is zero exactly where an equation over `x` holds. A right side written `0`
is not subtracted. -/
def equationPolynomial (maxDegree : UInt32) (text : List Char) :
    Except (Halt (EquationError α)) (Polynomial α) :=
  match splitEquation text with
  | (left, none) | (left, some ['0']) => Polynomial.ofExpression maxDegree left
  | (left, some right) => do
    let left ← Polynomial.ofExpression maxDegree left
    let right ← Polynomial.ofExpression maxDegree right
    return left.minus right

/-- Roots rounded for the reader; a rounded zero has no sign. -/
def Roots.rounded (digits : Int32) : Roots α → Roots α
  | .finite roots => .finite (roots.map fun x => Coefficient.roundTo digits x + 0)
  | .infinite => .infinite

def solveEquation (s : SolverSettings α) (text : List Char) :
    Except (Halt (EquationError α)) (Roots α) := do
  s.validate.mapError .unsolvable
  let polynomial ← equationPolynomial s.maxDegree text
  let found ← polynomial.solve s
  return found.rounded (← s.digits)

end InkAlgebra
