/-!
# Formats of JSON

What is asked of a library for JSON: values with texts, numbers, lists and fields in them, a text
for each value, and the value of a text. A record is decoded from a value by the names of its
fields; for each name there is a value, or none if the field is missing.
-/

namespace InkAlgebra

structure JsonFormat where
  Value : Type
  read? : List Char → Option Value
  write : Value → List Char
  ofText : List Char → Value
  ofNumber : Float → Value
  ofItems : List Value → Value
  ofFields : List (String × Value) → Value
  text? : Value → Option (List Char)
  number? : Value → Option Float
  items? : Value → Option (List Value)
  /-- The fields of an object in the order in which they are written, if it is one. -/
  fields? : Value → Option (List (String × Value))
  record? : List String → Value → Option (List (Option Value))

end InkAlgebra
