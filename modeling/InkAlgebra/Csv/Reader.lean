import InkAlgebra.Csv.Column

/-!
# The built-in reader of tables

The first row that is not blank names the columns, which may stand in any order. A row may be
shorter than the first one, and then ends with empty cells, but not longer. Columns that nobody asks
for are not typed.
-/

namespace InkAlgebra.Csv

def column? (header : Row) (body : List Row) (name : String) : Option (List Cell) :=
  (header.findIdx? fun cell => cell = some name.toList).map fun i =>
    body.map fun row => (row[i]?).getD none

def select? (sample : Nat) (names : List String) (text : List Char) :
    Option (List (List (Option Value))) :=
  match (rows text).dropWhile isBlankRow with
  | [] => none
  | header :: body =>
    if body.any fun row => header.length < row.length then none
    else names.mapM fun name => (column? header body name).bind (Value.ofColumn? sample)

def reader : TableReader where
  select? := select?
  asText := Value.asText
  asNumber? := Value.asNumber?

end InkAlgebra.Csv
