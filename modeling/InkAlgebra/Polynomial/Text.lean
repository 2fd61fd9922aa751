import InkAlgebra.Polynomial.Basic

/-!
# Polynomials as text

Terms from the highest degree down, joined by their signs: `3x^2 - x + 0.5`. A coefficient of size
one is left to its sign, except in the constant term; the zero polynomial is `0`.
-/

namespace InkAlgebra.Polynomial

variable {α : Type} [Scalar α]

def powerText (d : UInt32) : List Char :=
  if d = 0 then []
  else if d = 1 then ['x']
  else 'x' :: '^' :: Nat.toDigits 10 d.toNat

/-- The size of a term, without its sign. -/
def sizeText (write : α → List Char) (t : Term α) : List Char :=
  let size := Scalar.abs t.2
  let shown := t.1 = 0 || !(size == 1)
  (if shown then write size else []) ++ powerText t.1

/-- The terms after the first one, each behind its sign. -/
def restText (write : α → List Char) (terms : List (Term α)) : List Char :=
  terms.flatMap fun t => (if t.2 < 0 then " - " else " + ").toList ++ sizeText write t

/-- The text of a polynomial, given the text of a size. -/
def text (write : α → List Char) (p : Polynomial α) : List Char :=
  match p.terms.reverse with
  | [] => ['0']
  | t :: rest => (if t.2 < 0 then ['-'] else []) ++ sizeText write t ++ restText write rest

end InkAlgebra.Polynomial
