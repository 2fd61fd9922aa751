import InkAlgebra.Expression.Machine
import InkAlgebra.Number.Literal
import InkAlgebra.Polynomial.Basic

/-!
# Expressions as polynomials

The meaning of an expression over `x`: numbers are constants, `x` is the variable, no other letter
has a meaning, and the operators are the arithmetic of polynomials. The cap on degrees is the cap on
powers.
-/

namespace InkAlgebra.Polynomial

variable {α : Type} [Coefficient α]

def ofOperand? : Token → Option (Polynomial α)
  | .letter 'x' => some indeterminate
  | .number text => (readNumber? α text).map constant
  | _ => none

/-- The arithmetic of polynomials as the meaning of expressions. -/
def meaning (maxDegree : UInt32) : Meaning (Halt (EquationError α)) (Polynomial α) where
  operand t := match ofOperand? t with
    | some p => .ok p
    | none => .error (.unreadable (.unsupported t.name))
  unary o p := if o = .neg then p.neg else p
  binary o p q := match o with
    | .add => .ok (p.plus q)
    | .sub => .ok (p.minus q)
    | .mul => p.multiply q
    | .div => (p.divide q).mapError .unsolvable
    | _ => p.power q maxDegree
  malformed := .unreadable .malformed

def ofPostfix (maxDegree : UInt32) (tokens : List Token) :
    Except (Halt (EquationError α)) (Polynomial α) :=
  (meaning maxDegree).run tokens

def ofExpression (maxDegree : UInt32) (expression : List Char) :
    Except (Halt (EquationError α)) (Polynomial α) := do
  ofPostfix maxDegree (← (infixToPostfix expression).mapError .unreadable)

end InkAlgebra.Polynomial
