import InkAlgebra.Number.Binary64

/-!
# Shortest decimal digits

The fewest decimal digits that read back as a given binary64 number. A number `m * 2 ^ q` is read
back from every decimal between the midpoints to its two neighbours, ends included when `m` is
even. For 1, 2, … digits the two points of the decimal grid around the number are tried; the first
grid with a point in the interval wins, of two points the nearer one, and a tie goes as the format
says. Seventeen digits always suffice.

All comparisons are exact, on whole numbers.
-/

namespace InkAlgebra

/-- Which of two equally near decimals is taken. -/
inductive TieRule where
  | away
  | even
deriving DecidableEq, Repr

/-- A positive decimal `digits * 10 ^ exponent`. -/
structure Decimal where
  digits : Nat
  exponent : Int
deriving DecidableEq, Repr

namespace Decimal

/-- The same decimal without zeros at the end of its digits. -/
def trimmed (d : Decimal) : Decimal :=
  if d.digits ≠ 0 ∧ d.digits % 10 = 0 then trimmed ⟨d.digits / 10, d.exponent + 1⟩ else d
termination_by d.digits
decreasing_by omega

end Decimal

/-- The reals that read back as a positive binary64 number, over a common denominator, and the
number itself. -/
structure ReadingInterval where
  low : Nat
  value : Nat
  high : Nat
  denominator : Nat
  closed : Bool

namespace ReadingInterval

/-- The interval of `m * 2 ^ q`. Below a power of two the neighbour is only half as far away,
except at the bottom of the range, where all gaps are equal. -/
def ofBinary (m : Nat) (q : Int) : ReadingInterval :=
  let up := Nat.pow 2 (q - 2).toNat
  let near := m = Nat.pow 2 52 ∧ -1074 < q
  { low := (if near then 4 * m - 1 else 4 * m - 2) * up
    value := 4 * m * up
    high := (4 * m + 2) * up
    denominator := Nat.pow 2 (2 - q).toNat
    closed := m % 2 = 0 }

/-- Whether `digits * 10 ^ exponent` lies in the interval. -/
def contains (i : ReadingInterval) (d : Decimal) : Bool :=
  let point := d.digits * Nat.pow 10 d.exponent.toNat * i.denominator
  let scale := Nat.pow 10 (-d.exponent).toNat
  if i.closed then i.low * scale ≤ point && point ≤ i.high * scale
  else i.low * scale < point && point < i.high * scale

/-- The grid point to take at the given exponent, if any of the two around the number is in the
interval. -/
def pick? (tie : TieRule) (i : ReadingInterval) (exponent : Int) : Option Decimal :=
  let unit := Nat.pow 10 exponent.toNat * i.denominator
  let value := i.value * Nat.pow 10 (-exponent).toNat
  let below : Decimal := ⟨value / unit, exponent⟩
  let above : Decimal := ⟨value / unit + 1, exponent⟩
  match i.contains below, i.contains above with
  | true, false => some below
  | false, true => some above
  | false, false => none
  | true, true =>
    let twice := 2 * (value % unit)
    if twice < unit then some below
    else if unit < twice then some above
    else match tie with
      | .away => some above
      | .even => if below.digits % 2 = 0 then some below else some above

/-- The first hit on the grids of `n`, `n + 1`, … digits, with `tries` grids to go. -/
def search (tie : TieRule) (i : ReadingInterval) (place : Int) : (tries n : Nat) → Decimal
  | 0, n =>
      ⟨i.value * Nat.pow 10 (n - place).toNat / (Nat.pow 10 (place - n).toNat * i.denominator),
        place - n⟩
  | tries + 1, n =>
    match i.pick? tie (place + 1 - n) with
    | some d => d.trimmed
    | none => search tie i place tries (n + 1)

end ReadingInterval

/-- The shortest decimal that reads back as the size of a finite number other than zero. -/
def shortestDecimal (tie : TieRule) (x : Float) : Decimal :=
  let interval := ReadingInterval.ofBinary (Binary64.mantissa x) (Binary64.exponent x)
  interval.search tie (leadingPlace interval.value interval.denominator) 17 1

end InkAlgebra
