/-!
# Numbers, as the library uses them

Layout and algebra are written over a class of numbers instead of over one type of them: what they
compute on binary64 is what runs, and the same definitions read over an exact field are what the
laws of geometry and algebra talk about. A class here asks for operations only, never for laws;
a theorem asks for the laws that it needs.

§1 is the arithmetic that both halves share, §2 what box coordinates need on top, §3 what
coefficients and roots need.
-/

namespace InkAlgebra

/-! ## §1  Shared arithmetic -/

/-- Arithmetic with a decidable order. Equality is the number's own comparison, which need not be
equality of values: a number may differ from itself. -/
class Scalar (α : Type) extends Zero α, One α, Add α, Sub α, Mul α, Div α, Neg α, BEq α, LT α,
    LE α where
  [decidableLT : DecidableLT α]
  [decidableLE : DecidableLE α]
  ofNat : Nat → α
  abs : α → α

attribute [reducible, instance] Scalar.decidableLT Scalar.decidableLE

namespace Scalar

variable {α : Type} [Scalar α]

def half (x : α) : α := x / ofNat 2

/-- The sign of a number that is not zero: `1` or `-1`, and the number itself if it has none. -/
def sign (x : α) : α := if x < 0 then -1 else if 0 < x then 1 else x

/-- The product of a list of factors, read off the binary digits of the exponent from the lowest
up: `accumulated * base ^ n`. -/
def raise {β : Type} (times : β → β → β) (accumulated base : β) (n : Nat) : β :=
  if n = 0 then accumulated
  else
    let accumulated := if n % 2 = 1 then times accumulated base else accumulated
    if n / 2 = 0 then accumulated else raise times accumulated (times base base) (n / 2)
termination_by n
decreasing_by omega

end Scalar

/-! ## §2  Coordinates -/

class Coordinate (α : Type) extends Scalar α where
  /-- The smaller of two numbers; a number that compares with nothing gives way to the other. -/
  lesser : α → α → α
  /-- The larger of two numbers; a number that compares with nothing gives way to the other. -/
  greater : α → α → α
  /-- A total order, for sorting: it also places what `≤` leaves incomparable. -/
  precedes : α → α → Bool
  /-- Whether `rise / run` is at least the bound. A rise over no run is infinitely steep, in the
  direction of the rise; no rise over no run has no slope and meets no bound. -/
  slopeAtLeast : (rise run bound : α) → Bool
  tanDegrees : α → α

/-! ## §3  Coefficients -/

class Coefficient (α : Type) extends Scalar α where
  /-- A power with a number as exponent; everything to the power zero is one. -/
  pow : α → α → α
  isFinite : α → Bool
  isInfinite : α → Bool
  /-- Whether a number is finite and has no fractional part. -/
  isWhole : α → Bool
  /-- The whole part of a number as a 64-bit count; below zero it is zero, above the range the
  largest count. -/
  toCount : α → Nat
  /-- The nearest whole number; a half goes away from zero. -/
  round : α → α
  /-- The whole number nearest to `-log₁₀`, a half going away from zero, confined to 32 bits. -/
  decades : α → Int32
  ofDecimal : (mantissa : Nat) → (exponent : Int) → α
  infinity : α
  /-- The number that is none. -/
  undefined : α

namespace Coefficient

variable {α : Type} [Coefficient α]

/-- A power of ten; a negative one is the reciprocal of the positive one. -/
def tenPower (n : Int32) : α :=
  let magnitude := Scalar.raise (· * ·) (1 : α) (Scalar.ofNat 10) n.toInt.natAbs
  if n < 0 then 1 / magnitude else magnitude

def roundTo (digits : Int32) (x : α) : α :=
  let scale := tenPower digits
  round (x * scale) / scale

end Coefficient

end InkAlgebra
