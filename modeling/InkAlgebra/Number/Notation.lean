import InkAlgebra.Number.Shortest

/-!
# Numbers as text

Three notations share the shortest digits and differ in all else:

* *plain* never writes an exponent and no point without digits after it;
* *data* notation marks every number as fractional, and writes very large and very small ones with
  a signed exponent;
* *label* notation is data notation with no sign on exponents from zero up.
-/

namespace InkAlgebra

def natText (n : Nat) : List Char := Nat.toDigits 10 n

def intText (n : Int) : List Char :=
  if n < 0 then '-' :: natText n.natAbs else natText n.natAbs

namespace Decimal

def zeros (n : Nat) : List Char := List.replicate n '0'

/-- A decimal without exponent, and with at least `places` digits after the point; the point is
written only before digits. -/
def positional (places : Nat) (d : Decimal) : List Char :=
  let digits := natText d.digits ++ zeros d.exponent.toNat
  let fractional := (-d.exponent).toNat
  let padded := zeros (fractional + 1 - digits.length) ++ digits
  let (whole, fraction) := padded.splitAt (padded.length - fractional)
  let fraction := fraction ++ zeros (places - fractional)
  if fraction.isEmpty then whole else whole ++ '.' :: fraction

/-- One digit, the others after a point, and the exponent; `plus` is written before an exponent
that is not negative. -/
def scientific (plus : List Char) (d : Decimal) : List Char :=
  let digits := natText d.digits
  let exponent := d.exponent + (digits.length - 1 : Nat)
  let point := match digits.drop 1 with
    | [] => []
    | rest => '.' :: rest
  digits.take 1 ++ point ++ 'e' :: (if exponent < 0 then [] else plus) ++ intText exponent

end Decimal

def withSign (x : Float) (size : List Char) : List Char :=
  if Binary64.signBit x then '-' :: size else size

/-- Plain notation: `0.1`, `1`, `-0`, `inf`, `-inf`, `NaN`. -/
def plainText (x : Float) : List Char :=
  if x.isNaN then "NaN".toList
  else if x.isInf then withSign x "inf".toList
  else if x == 0 then withSign x ['0']
  else withSign x ((shortestDecimal .away x).positional 0)

/-- Numbers of a size from `10 ^ -5` up to below `10 ^ 16` are written without exponent. -/
def fractionalText (plus : List Char) (x : Float) : List Char :=
  if x == 0 then withSign x "0.0".toList
  else
    let size := shortestDecimal .even x
    withSign x
      (if 1e-5 ≤ x.abs && x.abs < 1e16 then size.positional 1 else size.scientific plus)

/-- Data notation: `1.0`, `0.00001`, `1e-6`, `1e+16`. What is not finite has none. -/
def dataText? (x : Float) : Option (List Char) :=
  if x.isFinite then some (fractionalText ['+'] x) else none

/-- Label notation: `1.0`, `1e16`, `NaN`, `inf`. -/
def labelText (x : Float) : List Char :=
  if x.isNaN then "NaN".toList
  else if x.isInf then withSign x "inf".toList
  else fractionalText [] x

end InkAlgebra
