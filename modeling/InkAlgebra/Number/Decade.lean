/-!
# Decimal size of a positive quotient

How many digits a number has, and at which decimal place a quotient starts. Both are exact; text
(`Number.Shortest`) and rounding precision (`Number.Binary64`) rest on them.
-/

namespace InkAlgebra

/-- The number of decimal digits of a number; zero has one. -/
def digitCount (n : Nat) : Nat := if n < 10 then 1 else digitCount (n / 10) + 1
termination_by n
decreasing_by omega

theorem digitCount_pos (n : Nat) : 0 < digitCount n := by
  rw [digitCount]
  split <;> omega

/-- Whether `10 ^ place ≤ numerator / denominator`. -/
def reachesDecade (numerator denominator : Nat) (place : Int) : Bool :=
  denominator * Nat.pow 10 place.toNat ≤ numerator * Nat.pow 10 (-place).toNat

/-- The place of the leading digit of a positive quotient: the largest `p` with
`10 ^ p ≤ numerator / denominator`. The digit counts leave two places to choose from. -/
def leadingPlace (numerator denominator : Nat) : Int :=
  let place : Int := (digitCount numerator : Int) - digitCount denominator
  if reachesDecade numerator denominator place then place else place - 1

end InkAlgebra
