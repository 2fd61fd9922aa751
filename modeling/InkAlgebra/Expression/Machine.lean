import InkAlgebra.Expression.Postfix

/-!
# Running a postfix

One stack machine for every meaning of an expression: it is told what an operand is worth and what
the operators do, and runs a postfix from left to right. A polynomial, a typeset formula and a bare
count of operands are three such meanings.
-/

namespace InkAlgebra

/-- A meaning for operands and operators, with its own errors; `malformed` is the error of a row
that lacks operands or leaves more than one value. -/
structure Meaning (ε β : Type) where
  operand : Token → Except ε β
  unary : Op → β → β
  binary : Op → β → β → Except ε β
  malformed : ε

namespace Meaning

variable {ε β : Type}

/-- Runs a postfix on a stack of values. -/
def runFrom (m : Meaning ε β) : List β → List Token → Except ε β
  | [value], [] => .ok value
  | _, [] => .error m.malformed
  | stack, .op o :: rest =>
    if o.isUnary then
      match stack with
      | a :: below => m.runFrom (m.unary o a :: below) rest
      | [] => .error m.malformed
    else
      match stack with
      | b :: a :: below => do m.runFrom ((← m.binary o a b) :: below) rest
      | _ => .error m.malformed
  | stack, t :: rest => do m.runFrom ((← m.operand t) :: stack) rest

def run (m : Meaning ε β) (tokens : List Token) : Except ε β := m.runFrom [] tokens

end Meaning

end InkAlgebra
