/-!
# Readers of tables

What is asked of a reader of tables: the columns of some names, each with one type for all its
cells, found in the first of them. A column can be taken as texts or as numbers, whatever its type
is; its values are then written, or counted as numbers.
-/

namespace InkAlgebra

namespace Csv

/-- The types of columns. -/
inductive CellType where
  | truth
  | whole
  | number
  | text
deriving DecidableEq, Repr

/-- What a cell holds, by the type of its column. -/
inductive Value where
  | truth (b : Bool)
  | whole (n : Int)
  | number (x : Float)
  | text (content : List Char)
deriving Repr

end Csv

structure TableReader where
  /-- The columns of some names in the order of the names, typed by so many of their first cells; a
  cell may hold nothing. There are none if a name is missing, or the text is no table. -/
  select? (sample : Nat) (names : List String) (text : List Char) :
    Option (List (List (Option Csv.Value)))
  asText : Csv.Value → List Char
  asNumber? : Csv.Value → Option Float

end InkAlgebra
