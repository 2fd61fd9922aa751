import InkAlgebra.Number.Scalar

/-!
# Numeric literals

The reader of numbers as they stand in expressions, arguments and table cells. A literal is first a
decimal of any length, and becomes a number of a chosen type only afterwards; the two steps are
separate because the grammar says nothing about rounding.

Grammar: an optional sign; then `inf`, `infinity` or `nan` in any case, or digits with at most one
point among or around them, at least one digit, and optionally `e` or `E` with a signed whole
exponent. Blanks and digit separators have no place in it.
-/

namespace InkAlgebra

/-- The number written by a run of decimal digits, on top of what was read before. -/
def digitsValue (n : Nat) (digits : List Char) : Nat :=
  digits.foldl (fun n c => 10 * n + (c.toNat - '0'.toNat)) n

/-- What a literal denotes: `±mantissa * 10 ^ exponent`, an infinity, or no number. -/
inductive Literal where
  | decimal (negative : Bool) (mantissa : Nat) (exponent : Int)
  | infinite (negative : Bool)
  | undefined
deriving DecidableEq, Repr

namespace Literal

/-- A sign at the head of a text, and what follows it. -/
def sign : List Char → Bool × List Char
  | '-' :: rest => (true, rest)
  | '+' :: rest => (false, rest)
  | text => (false, text)

/-- The exponent part of a literal, up to its end: nothing, or `e` with a whole number. -/
def exponent? : List Char → Option Int
  | [] => some 0
  | c :: rest =>
    if c.toLower = 'e' then
      let (negative, digits) := sign rest
      if digits.isEmpty || !digits.all Char.isDigit then none
      else
        let size : Int := digitsValue 0 digits
        some (if negative then -size else size)
    else none

/-- The digits of a literal and its point, before the exponent. -/
def decimal? (negative : Bool) (text : List Char) : Option Literal :=
  let whole := text.takeWhile Char.isDigit
  let (fraction, rest) := match text.dropWhile Char.isDigit with
    | '.' :: rest => (rest.takeWhile Char.isDigit, rest.dropWhile Char.isDigit)
    | rest => ([], rest)
  if whole.isEmpty && fraction.isEmpty then none
  else
    (exponent? rest).map fun e =>
      .decimal negative (digitsValue (digitsValue 0 whole) fraction) (e - fraction.length)

def ofText? (text : List Char) : Option Literal :=
  let (negative, rest) := sign text
  match String.ofList (rest.map Char.toLower) with
  | "inf" | "infinity" => some (.infinite negative)
  | "nan" => some .undefined
  | _ => decimal? negative rest

def value {α : Type} [Coefficient α] : Literal → α
  | decimal negative mantissa exponent =>
    let size : α := Coefficient.ofDecimal mantissa exponent
    if negative then -size else size
  | infinite negative => if negative then -Coefficient.infinity else Coefficient.infinity
  | undefined => Coefficient.undefined

end Literal

/-- The number written by a text, if it is a literal. -/
def readNumber? (α : Type) [Coefficient α] (text : List Char) : Option α :=
  (Literal.ofText? text).map Literal.value

end InkAlgebra
