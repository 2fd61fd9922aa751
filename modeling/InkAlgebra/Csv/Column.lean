import InkAlgebra.Csv.Row
import InkAlgebra.Csv.Table
import InkAlgebra.Number.Literal
import InkAlgebra.Number.Notation

/-!
# Columns of the built-in reader

A column has one type, found by looking at its first cells: truth values, whole numbers, numbers or
text. Whole numbers and numbers together are numbers, every other mixture is text. Later cells have
to fit the type.

As text a cell is written in the notation of its type.

§1 is the type of a cell, §2 that of a column, §3 what cells are worth.
-/

namespace InkAlgebra.Csv

/-! ## §1  Types of cells -/

namespace CellType

def isDigits (content : List Char) : Bool := !content.isEmpty && content.all Char.isDigit

/-- A whole number: digits with or without a minus. -/
def isWhole : List Char → Bool
  | '-' :: rest => isDigits rest
  | content => isDigits content

/-- An exponent: `e`, a sign or none, and digits. -/
def isExponent : List Char → Bool
  | e :: rest => (e = 'e' || e = 'E') && isDigits (Literal.sign rest).2
  | [] => false

/-- A number with a point, an exponent, or a name. A bare point at the end is no place for an
exponent, and whole numbers are not among these. -/
def isNumber (content : List Char) : Bool :=
  let rest := (Literal.sign content).2
  let whole := rest.takeWhile Char.isDigit
  match rest.dropWhile Char.isDigit with
  | '.' :: rest =>
    let fraction := rest.takeWhile Char.isDigit
    let exponent := rest.dropWhile Char.isDigit
    if fraction.isEmpty then !whole.isEmpty && exponent.isEmpty
    else exponent.isEmpty || isExponent exponent
  | exponent =>
    (!whole.isEmpty && isExponent exponent) || rest = "inf".toList || rest = "NaN".toList

def truth? (content : List Char) : Option Bool :=
  match String.ofList (content.map Char.toLower) with
  | "true" => some true
  | "false" => some false
  | _ => none

def ofCell (content : List Char) : CellType :=
  if (truth? content).isSome then truth
  else if isNumber content then number
  else if isWhole content then whole
  else text

/-! ## §2  Types of columns -/

def join (a b : CellType) : CellType :=
  if a = b then a
  else match a, b with
    | whole, number | number, whole => number
    | _, _ => text

/-- The type of a column with some texts in its first cells; without any it is text. -/
def ofSample (contents : List (List Char)) : CellType :=
  match contents.map ofCell with
  | [] => text
  | t :: rest => rest.foldl join t

end CellType

/-! ## §3  Values of cells -/

namespace Value

/-- The whole number of 64 bits that a text writes. -/
def wholeOf? (content : List Char) : Option Int :=
  if CellType.isWhole content then
    let (negative, digits) := Literal.sign content
    let size : Int := digitsValue 0 digits
    let n := if negative then -size else size
    if Int64.minValue.toInt ≤ n ∧ n ≤ Int64.maxValue.toInt then some n else none
  else none

/-- The value of a text in a column, if it fits the type. Numbers may have blanks in front; a blank
cell of numbers holds nothing. -/
def ofText? (type : CellType) (content : List Char) : Option (Option Value) :=
  match type with
  | .text => some (some (text content))
  | .truth => (CellType.truth? content).map fun b => some (truth b)
  | .whole => ofNumeric fun digits => (wholeOf? digits).map whole
  | .number => ofNumeric fun digits => (readNumber? Float digits).map number
where
  ofNumeric (value? : List Char → Option Value) : Option (Option Value) :=
    let inked := content.dropWhile fun c => c = ' ' || c = '\t'
    if inked.isEmpty && !content.isEmpty then some none else (value? inked).map some

/-- The values of a column, of which all have to fit its type. -/
def ofColumn? (sample : Nat) (cells : List Cell) : Option (List (Option Value)) :=
  let type := CellType.ofSample ((cells.take sample).filterMap id)
  cells.mapM fun
    | none => some none
    | some content => ofText? type content

def asText : Value → List Char
  | truth b => (if b then "true" else "false").toList
  | whole n => intText n
  | number x => labelText x
  | text content => content

def asNumber? : Value → Option Float
  | truth b => some (if b then 1 else 0)
  | whole n => some (Float.ofInt n)
  | number x => some x
  | text content => readNumber? Float content

end Value

end InkAlgebra.Csv
