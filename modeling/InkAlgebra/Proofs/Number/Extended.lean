import Mathlib
import InkAlgebra.Proofs.Number.Exact

/-!
# Exact arithmetic with infinities

What binary64 has besides numbers are two infinities and what is no number. `Extended` adds them to
an exact field: finite numbers are calculated with as in the field, and the rest follows the rules
for the special values. Zero has one sign only, so that a number divided by it goes to the infinity
of its own sign.

It is where a polynomial read as exact can be evaluated at an infinity. §1 is the arithmetic, §2 the
instances.
-/

namespace InkAlgebra

inductive Extended (K : Type) where
  | finite (x : K)
  | infinite (negative : Bool)
  /-- What is no number. -/
  | undefined
deriving DecidableEq

namespace Extended

open Exact

variable {K : Type} [Field K] [LinearOrder K]

/-! ## §1  Arithmetic -/

def neg : Extended K → Extended K
  | finite x => finite (-x)
  | infinite negative => infinite !negative
  | undefined => undefined

def add : Extended K → Extended K → Extended K
  | finite x, finite y => finite (x + y)
  | infinite negative, finite _ => infinite negative
  | finite _, infinite negative => infinite negative
  | infinite negative, infinite negative' =>
      if negative = negative' then infinite negative else undefined
  | _, _ => undefined

/-- A product with an infinity has the sign of the factors together, and none if a factor is
zero. -/
def mul : Extended K → Extended K → Extended K
  | finite x, finite y => finite (x * y)
  | infinite negative, finite y =>
      if y = 0 then undefined else infinite (negative ^^ decide (y < 0))
  | finite x, infinite negative =>
      if x = 0 then undefined else infinite (negative ^^ decide (x < 0))
  | infinite negative, infinite negative' => infinite (negative ^^ negative')
  | _, _ => undefined

def div : Extended K → Extended K → Extended K
  | finite x, finite y => if y ≠ 0 then finite (x / y) else if x =
      0 then undefined else infinite (x < 0)
  | infinite negative, finite y => infinite (negative ^^ decide (y < 0))
  | finite _, infinite _ => finite 0
  | _, _ => undefined

/-- What is no number compares with nothing. -/
def less : Extended K → Extended K → Bool
  | finite x, finite y => x < y
  | infinite negative, finite _ => negative
  | finite _, infinite negative => !negative
  | infinite negative, infinite negative' => negative && !negative'
  | _, _ => false

def equals : Extended K → Extended K → Bool
  | finite x, finite y => x = y
  | infinite negative, infinite negative' => negative = negative'
  | _, _ => false

def absolute : Extended K → Extended K
  | finite x => finite (Scalar.abs x)
  | infinite _ => infinite false
  | undefined => undefined

variable [FloorRing K]

/-- Only finite numbers are ever raised: at an infinity a polynomial is not evaluated term by
term. -/
def pow : Extended K → Extended K → Extended K
  | finite x, finite y => finite (Coefficient.pow x y)
  | _, _ => undefined

def isWhole : Extended K → Bool
  | finite x => Coefficient.isWhole x
  | _ => false

def toCount : Extended K → ℕ
  | finite x => Coefficient.toCount x
  | infinite negative => if negative then 0 else 2 ^ 64 - 1
  | undefined => 0

def round : Extended K → Extended K
  | finite x => finite (Coefficient.round x)
  | x => x

def decades : Extended K → Int32
  | finite x => Coefficient.decades x
  | infinite negative => if negative then 0 else Int32.minValue
  | undefined => 0

/-! ## §2  Instances -/

instance : Scalar (Extended K) where
  zero := finite 0
  one := finite 1
  add := add
  sub x y := add x (neg y)
  mul := mul
  div := div
  neg := neg
  beq := equals
  lt x y := less x y = true
  le x y := less x y = true ∨ equals x y = true
  decidableLT x y := inferInstanceAs (Decidable (less x y = true))
  decidableLE x y := inferInstanceAs (Decidable (less x y = true ∨ equals x y = true))
  ofNat n := finite n
  abs := absolute

instance : Coefficient (Extended K) where
  pow := pow
  isFinite
    | finite _ => true
    | _ => false
  isInfinite
    | infinite _ => true
    | _ => false
  isWhole := isWhole
  toCount := toCount
  round := round
  decades := decades
  ofDecimal mantissa exponent := finite (Coefficient.ofDecimal mantissa exponent)
  infinity := infinite false
  undefined := undefined

end Extended

end InkAlgebra
