import InkAlgebra.Json.Decode
import InkAlgebra.Json.Format
import InkAlgebra.Json.Read
import InkAlgebra.Json.Write

/-!
# The built-in format of JSON

Compact text, and the values that keep what is written in it.
-/

namespace InkAlgebra.Json

def items? : Json → Option (List Json)
  | array items => some items
  | _ => none

def ofFields (fields : List (String × Json)) : Json :=
  object (fields.map fun (name, v) => (escape name.toList, v))

def format : JsonFormat where
  Value := Json
  read? := read?
  write := compact
  ofText := ofText
  ofNumber := ofFloat
  ofItems := array
  ofFields := ofFields
  text? := text?
  number? := float?
  items? := items?
  fields? := fields?
  record? := record?

end InkAlgebra.Json
