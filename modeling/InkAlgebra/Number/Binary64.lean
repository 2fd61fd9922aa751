import InkAlgebra.Number.Decade
import InkAlgebra.Number.Scalar

/-!
# Binary64 as coordinate and as coefficient

The numbers that run. An operation that has an exact rule is given by the rule, in terms of the
number's bits or of exact arithmetic, so that a closed computation can be carried out inside the
logic; the platform's library is asked only for what has to be rounded and has no such rule
(a power that is not exactly representable, a tangent, a logarithm too close to a half).

§1 takes numbers apart, §2 holds the rules, §3 the two instances.
-/

namespace InkAlgebra

namespace Binary64

/-! ## §1  Parts of a number -/

/-- The 52 stored bits of the significand. -/
def fraction (x : Float) : Nat := (x.toBits &&& 0xFFFFFFFFFFFFF).toNat

/-- The 11 stored bits of the exponent; all ones in infinities and in what is no number. -/
def exponentField (x : Float) : Nat := (x.toBits >>> 52 &&& 0x7FF).toNat

/-- The sign bit, which zero has too. -/
def signBit (x : Float) : Bool := x.toBits >>> 63 = 1

/-- A finite number's size is `mantissa x * 2 ^ exponent x`. -/
def mantissa (x : Float) : Nat :=
  if exponentField x = 0 then fraction x else fraction x + Nat.pow 2 52

@[inherit_doc mantissa]
def exponent (x : Float) : Int :=
  if exponentField x = 0 then -1074 else (exponentField x : Int) - 1075

/-- A finite number's size is `numerator x / denominator x`. -/
def numerator (x : Float) : Nat := mantissa x * Nat.pow 2 (exponent x).toNat

@[inherit_doc numerator]
def denominator (x : Float) : Nat := Nat.pow 2 (-exponent x).toNat

/-- The number of zero bits at the low end of a positive number. -/
def trailingZeros (m : Nat) : Nat := (m - (m &&& (m - 1))).log2

/-! ## §2  Rules -/

/-- A whole number of either sign as a key for the total order of all bit patterns: `-0` before
`0`, what is no number beyond the infinity of its sign. -/
def orderKey (x : Float) : Int :=
  let bits : Int := x.toBits.toNat
  if signBit x then Int64.maxValue.toInt - bits else bits

/-- From `2 ^ 52` on every number is whole. -/
def allWhole : Float := 4503599627370496

/-- The whole part of a number's size. -/
def wholePart (x : Float) : Float := .ofNat x.abs.toUInt64.toNat

def isWhole (x : Float) : Bool :=
  x.isFinite && (allWhole ≤ x.abs || wholePart x == x.abs)

/-- The nearest whole number, a half going away from zero; the sign stays, also on zero. -/
def round (x : Float) : Float :=
  if x.abs < allWhole then
    let whole := wholePart x
    let size := if 0.5 ≤ x.abs - whole then whole + 1 else whole
    if x < 0 then -size else if x == 0 then x else size
  else x

/-- Whether `x ^ n` and every power on the way to it are exactly representable: the odd part of the
significand has few enough bits, and the exponent stays in the normal range. -/
def exactPower (x : Float) (n : Nat) : Bool :=
  exponentField x ≠ 2047 &&
    (mantissa x = 0 ||
      let zeros := trailingZeros (mantissa x)
      let bits := (mantissa x).log2 + 1 - zeros
      let low := exponent x + zeros
      bits * n ≤ 53 && -1022 ≤ low * n && (low + bits) * n ≤ 1023)

/-- The power `x ^ y`, computed by multiplication where that is exact. -/
def pow (x y : Float) : Float :=
  if y == 0 then 1
  else if y == 1 then x
  else if 0 < y && y ≤ 1024 && exactPower x y.toUInt64.toNat && isWhole y then
    Scalar.raise (· * ·) 1 x y.toUInt64.toNat
  else Float.pow x y

/-- The whole number nearest to `-log₁₀ (numerator / denominator)`. Where the logarithm is so near
to a half that its own rounding decides, this is only the whole number below the half, with the
verdict `true`. The comparison is made on squares, which turns the half into an odd power of ten. -/
def nearestDecade (numerator denominator : Nat) : Int × Bool :=
  let square := numerator * numerator
  let inverse := denominator * denominator
  let place := leadingPlace inverse square
  let odd := if place % 2 = 1 then place else place + 1
  let left := inverse * Nat.pow 10 (-odd).toNat
  let right := square * Nat.pow 10 odd.toNat
  if (left - right + (right - left)) * Nat.pow 10 12 ≤ right then (place.fdiv 2, true)
  else ((place + 1).fdiv 2, false)

/-- The whole number nearest to `-log₁₀ x`. Nothing has a logarithm below zero, and the logarithms
of zero and of infinity lie beyond every bound. -/
def decades (x : Float) : Int32 :=
  if x == 0 then Int32.maxValue
  else if 0 < x then
    if x.isInf then Int32.minValue
    else
      match nearestDecade (numerator x) (denominator x) with
      | (n, false) => Int32.ofInt n
      | (n, true) => Int32.ofInt (if round (-(Float.log10 x)) ≤ .ofInt n then n else n + 1)
  else 0

/-- The number nearest to `mantissa * 10 ^ exponent`; what is out of range on sight is decided
without writing it out. -/
def ofDecimal (mantissa : Nat) (exponent : Int) : Float :=
  if mantissa = 0 then 0
  else
    let size := exponent + digitCount mantissa
    if 310 < size then 1 / 0
    else if size < -330 then 0
    else Float.ofScientific mantissa (exponent < 0) exponent.natAbs

def degree : Float := 3.14159265358979323846 / 180

end Binary64

/-! ## §3  Instances -/

instance : Scalar Float where
  ofNat := .ofNat
  abs := .abs

instance : Coordinate Float where
  lesser x y := if x.isNaN then y else if y < x then y else x
  greater x y := if x.isNaN then y else if x < y then y else x
  precedes x y := Binary64.orderKey x ≤ Binary64.orderKey y
  slopeAtLeast rise run bound := bound ≤ rise / run
  tanDegrees angle := Float.tan (angle * Binary64.degree)

instance : Coefficient Float where
  pow := Binary64.pow
  isFinite := Float.isFinite
  isInfinite := Float.isInf
  isWhole := Binary64.isWhole
  toCount x := x.toUInt64.toNat
  round := Binary64.round
  decades := Binary64.decades
  ofDecimal := Binary64.ofDecimal
  infinity := 1 / 0
  undefined := 0 / 0

end InkAlgebra
