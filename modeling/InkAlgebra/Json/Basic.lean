import InkAlgebra.Json.Escape
import InkAlgebra.Number.Notation

/-!
# JSON values

A value keeps the characters that its numbers and strings are written with, so that reading a text
decides about its form only: what a number is worth, and whether the escapes in a string stand for
characters, is asked when a field is used. Fields of objects keep their order and may repeat.

§1 is the type, §2 the values that texts and numbers are written as.
-/

namespace InkAlgebra

/-! ## §1  Values -/

inductive Json where
  | null
  | bool (b : Bool)
  /-- A number as written. -/
  | number (lexeme : List Char)
  /-- A string as written between its quotes. -/
  | string (escaped : List Char)
  | array (items : List Json)
  | object (fields : List (List Char × Json))
deriving Repr

namespace Json

/-! ## §2  Values of plain data -/

def ofText (text : List Char) : Json := string (escape text)

/-- The number value of a number; what is not finite is null. -/
def ofFloat (x : Float) : Json :=
  match dataText? x with
  | some lexeme => number lexeme
  | none => null

def ofNat (n : Nat) : Json := number (natText n)

end Json

end InkAlgebra
