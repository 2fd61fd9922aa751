import InkAlgebra.Json.Read
import InkAlgebra.Number.Literal

/-!
# Taking JSON values apart

Decoders of single values, and of records. A record is an object with named fields, or an array with
the fields in their declared order. In an object unknown fields are passed over, whatever they hold,
and a repeated known field is an error; in an array the last fields may be missing, and surplus ones
are an error. Whether a missing field is an error is up to the record.
-/

namespace InkAlgebra.Json

def text? : Json → Option (List Char)
  | string escaped => unescape? escaped
  | _ => none

/-- The number nearest to what is written, if that is not out of range. Not every library for JSON
reads the nearest one. -/
def float? : Json → Option Float
  | number lexeme => do
    let x ← readNumber? Float lexeme
    if x.isFinite then some x else none
  | _ => none

/-- A whole number from zero up to a bound, written with digits only. -/
def nat? (bound : Nat) : Json → Option Nat
  | number lexeme =>
    let n := digitsValue 0 lexeme
    if lexeme.all Char.isDigit && n ≤ bound then some n else none
  | _ => none

/-- The fields of an object, if all their names can be read. -/
def fields? : Json → Option (List (String × Json))
  | object fields => fields.mapM fun (key, v) => return (String.ofList (← unescape? key), v)
  | _ => none

def record? (names : List String) : Json → Option (List (Option Json))
  | object fields => do
    let known ← (object fields).fields?
    names.mapM fun name =>
      match known.filter fun field => field.1 = name with
      | [] => some none
      | [(_, v)] => some (some v)
      | _ => none
  | array items =>
    if items.length ≤ names.length then
      some (items.map some ++ List.replicate (names.length - items.length) none)
    else none
  | _ => none

/-- A field that takes a default if it is missing. -/
def orDefault {β : Type} (decode : Json → Option β) (default : β) : Option Json → Option β
  | some v => decode v
  | none => some default

end InkAlgebra.Json
