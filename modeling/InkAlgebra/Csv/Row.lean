/-!
# Rows of a table

A table is text with one row a line and commas between the cells of a row. A cell that starts with a
quote ends at the next single quote; two quotes in it stand for one, and commas and line ends in it
are text. An empty cell holds nothing, which is not the same as a quoted empty text.

Lines end with a line feed, which a carriage return may precede; the last one may lack its end.
-/

namespace InkAlgebra.Csv

/-- What a cell holds: a text, or nothing. -/
abbrev Cell := Option (List Char)

abbrev Row := List Cell

/-- Where in a cell the reader is. -/
inductive Place where
  | start
  | plain
  | quoted
  /-- Behind a quote in a quoted cell: its end, or the first of two. -/
  | behindQuote
deriving DecidableEq, Repr

/-- What is read of the current row: finished cells, the last one first, and the text of the cell
that is being read, its last character first. -/
structure OpenRow where
  cells : Row
  text : List Char
  place : Place

namespace OpenRow

def fresh : OpenRow := ⟨[], [], .start⟩

def finish (p : OpenRow) : Row :=
  let cell : Cell := if p.place = .start then none else some p.text.reverse
  cell :: p.cells

def nextCell (p : OpenRow) : OpenRow := ⟨p.finish, [], .start⟩

def add (p : OpenRow) (place : Place) (c : Char) : OpenRow :=
  { p with text := c :: p.text, place }

def move (p : OpenRow) (place : Place) : OpenRow := { p with place }

end OpenRow

/-- The rows of a text, given what is read of the current one. At the end of the text a row counts
if anything of it was read. -/
def rowsFrom (p : OpenRow) : List Char → List Row
  | [] => if p.cells.isEmpty && p.place = .start then [] else [p.finish.reverse]
  | c :: rest =>
    if p.place = .quoted then
      rowsFrom (if c = '"' then p.move .behindQuote else p.add .quoted c) rest
    else if c = '"' && p.place = .start then rowsFrom (p.move .quoted) rest
    else if c = '"' && p.place = .behindQuote then rowsFrom (p.add .quoted c) rest
    else if c = ',' then rowsFrom p.nextCell rest
    else if c = '\n' then p.finish.reverse :: rowsFrom .fresh rest
    else if c = '\r' && rest.head? = some '\n' then rowsFrom p rest
    else rowsFrom (p.add (if p.place = .start then .plain else p.place) c) rest

/-- The rows of a text; a byte order mark in front of it is no part of it. -/
def rows (text : List Char) : List Row :=
  rowsFrom .fresh (match text with
    | '\ufeff' :: rest => rest
    | text => text)

def isBlankRow (row : Row) : Bool := row = [none]

end InkAlgebra.Csv
