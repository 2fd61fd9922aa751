import Mathlib
import InkAlgebra.Csv.Row

/-!
# Tables that are written

A table as text, such that its cells are read back as they are: a cell is put between quotes where
it needs them, and the quotes in it are doubled. No character is forbidden in a cell, and an empty
text stays apart from a cell that holds nothing.

§1 is writing. §2 reads cells and rows back, §3 tables.
-/

namespace InkAlgebra.Csv

/-! ## §1  Writing -/

/-- A character that is not always text outside of quotes. -/
def isMark (c : Char) : Bool := c = '"' || c = ',' || c = '\n' || c = '\r' || c = '\ufeff'

def doubleQuotes (content : List Char) : List Char :=
  content.flatMap fun c => if c = '"' then ['"', '"'] else [c]

/-- A cell, between quotes where it needs them. -/
def cellText (content : List Char) : List Char :=
  if content.isEmpty || content.any isMark then '"' :: doubleQuotes content ++ ['"'] else content

def rowText : List (List Char) → List Char
  | [] => ['\n']
  | cell :: cells =>
      cellText cell ++ cells.flatMap (fun content => ',' :: cellText content) ++ ['\n']

/-- A column of a table about things of one kind: its name, and what it holds about each of them. -/
abbrev Column (β : Type) := String × (β → List Char)

variable {β : Type}

def Column.heading (columns : List (Column β)) : List (List Char) :=
  columns.map fun column => column.1.toList

def Column.entries (columns : List (Column β)) (thing : β) : List (List Char) :=
  columns.map fun column => column.2 thing

/-- A row with the names of the columns, and then one for each thing. -/
def tableText (columns : List (Column β)) (things : List β) : List Char :=
  rowText (Column.heading columns) ++ things.flatMap fun thing =>
    rowText (Column.entries columns thing)

/-! ## §2  Cells and rows -/

theorem rowsFrom_unmarked {c : Char} (hc : isMark c = false) {p : OpenRow} (hp : p.place ≠ .quoted)
    (rest : List Char) :
    rowsFrom p (c :: rest) =
        rowsFrom (p.add (if p.place = .start then .plain else p.place) c) rest := by
  simp only [isMark, Bool.or_eq_false_iff, decide_eq_false_iff_not] at hc
  obtain ⟨⟨⟨⟨hquote, hcomma⟩, hline⟩, hreturn⟩, -⟩ := hc
  simp [rowsFrom, hp, hquote, hcomma, hline, hreturn]

theorem rowsFrom_plain {content : List Char} (h : content.any isMark = false) (cells : Row)
    (text rest : List Char) :
    rowsFrom ⟨cells, text, .plain⟩ (content ++ rest) =
        rowsFrom ⟨cells, content.reverse ++ text, .plain⟩ rest := by
  induction content generalizing text with
  | nil => rfl
  | cons c content ih =>
      rw [List.any_cons, Bool.or_eq_false_iff] at h
      rw [List.cons_append, rowsFrom_unmarked h.1 (by rintro ⟨⟩),
        List.reverse_cons, List.append_assoc]
      exact ih h.2 (c :: text)

/-- Within quotes everything is text, and two quotes are one. -/
theorem rowsFrom_doubleQuotes (content : List Char) (cells : Row) (text rest : List Char) :
    rowsFrom ⟨cells, text, .quoted⟩ (doubleQuotes content ++ rest) =
      rowsFrom ⟨cells, content.reverse ++ text, .quoted⟩ rest := by
  induction content generalizing text with
  | nil => rfl
  | cons c content ih =>
      have hstep : rowsFrom ⟨cells, text, .quoted⟩ (doubleQuotes (c :: content) ++ rest) =
          rowsFrom ⟨cells, c :: text, .quoted⟩ (doubleQuotes content ++ rest) := by
        by_cases hquote : c = '"'
        · subst hquote
          rfl
        · simp [doubleQuotes, rowsFrom, OpenRow.add, hquote]
      rw [hstep, ih, List.reverse_cons, List.append_assoc]
      rfl

/-- A cell that was written is read as its text, and is over. -/
theorem exists_rowsFrom_cellText (content : List Char) (cells : Row) :
    ∃ place, (place = .plain ∨ place = .behindQuote) ∧
      ∀ rest, rowsFrom ⟨cells, [], .start⟩ (cellText content ++ rest) =
        rowsFrom ⟨cells, content.reverse, place⟩ rest := by
  unfold cellText
  split
  · refine ⟨.behindQuote, .inr rfl, ?_⟩
    intro rest
    have hopen : rowsFrom ⟨cells, [], .start⟩ ('"' :: doubleQuotes content ++ ['"'] ++ rest) =
        rowsFrom ⟨cells, [], .quoted⟩ (doubleQuotes content ++ '"' :: rest) := by
      rw [List.append_assoc, List.cons_append]
      rfl
    rw [hopen, rowsFrom_doubleQuotes, List.append_nil]
    rfl
  · rename_i hplain
    rw [Bool.or_eq_true, not_or, Bool.not_eq_true, Bool.not_eq_true] at hplain
    obtain ⟨hne, hmarks⟩ := hplain
    refine ⟨.plain, .inl rfl, ?_⟩
    intro rest
    cases content with
    | nil => cases hne
    | cons c content =>
        rw [List.any_cons, Bool.or_eq_false_iff] at hmarks
        rw [List.cons_append, rowsFrom_unmarked hmarks.1 (by rintro ⟨⟩), List.reverse_cons]
        exact rowsFrom_plain hmarks.2 cells [c] rest

theorem rowsFrom_cell_comma (content : List Char) (cells : Row) (rest : List Char) :
    rowsFrom ⟨cells, [], .start⟩ (cellText content ++ ',' :: rest) =
      rowsFrom ⟨some content :: cells, [], .start⟩ rest := by
  obtain ⟨place, hplace, hread⟩ := exists_rowsFrom_cellText content cells
  rw [hread]
  rcases hplace with rfl | rfl <;> simp [rowsFrom, OpenRow.nextCell, OpenRow.finish]

theorem rowsFrom_cell_lineEnd (content : List Char) (cells : Row) (rest : List Char) :
    rowsFrom ⟨cells, [], .start⟩ (cellText content ++ '\n' :: rest) =
      (some content :: cells).reverse :: rowsFrom .fresh rest := by
  obtain ⟨place, hplace, hread⟩ := exists_rowsFrom_cellText content cells
  rw [hread]
  rcases hplace with rfl | rfl <;> simp [rowsFrom, OpenRow.finish]

theorem rowsFrom_rowText_from (cell : List Char) (row : List (List Char)) (cells : Row)
    (rest : List Char) :
    rowsFrom ⟨cells, [], .start⟩ (rowText (cell :: row) ++ rest) =
      (cells.reverse ++ (cell :: row).map some) :: rowsFrom .fresh rest := by
  induction row generalizing cell cells with
  | nil =>
      have hline : rowText [cell] ++ rest = cellText cell ++ '\n' :: rest := by simp [rowText]
      rw [hline, rowsFrom_cell_lineEnd, List.reverse_cons]
      rfl
  | cons next row ih =>
      have hcomma : rowText (cell :: next :: row) ++ rest =
          cellText cell ++ ',' :: (rowText (next :: row) ++ rest) := by
        simp [rowText]
      rw [hcomma, rowsFrom_cell_comma, ih, List.reverse_cons, List.append_assoc]
      rfl

theorem rowsFrom_rowText {row : List (List Char)} (hrow : row ≠ []) (rest : List Char) :
    rowsFrom .fresh (rowText row ++ rest) = row.map some :: rowsFrom .fresh rest := by
  cases row with
  | nil => exact absurd rfl hrow
  | cons cell row => exact rowsFrom_rowText_from cell row [] rest

/-! ## §3  Tables -/

theorem rowsFrom_flatMap_rowText {row : β → List (List Char)} (hrow : ∀ thing, row thing ≠ [])
    (things : List β) :
    rowsFrom .fresh (things.flatMap fun thing => rowText (row thing)) =
      things.map fun thing => (row thing).map some := by
  induction things with
  | nil => rfl
  | cons thing things ih => rw [List.flatMap_cons, rowsFrom_rowText (hrow thing), ih, List.map_cons]

/-- A cell with a byte order mark is in quotes. -/
theorem exists_cellText_eq_cons (cell : List Char) :
    ∃ c rest, cellText cell = c :: rest ∧ c ≠ '\ufeff' := by
  unfold cellText
  split
  · exact ⟨'"', _, rfl, by decide⟩
  · rename_i hplain
    rw [Bool.or_eq_true, not_or, Bool.not_eq_true, Bool.not_eq_true] at hplain
    obtain ⟨hne, hmarks⟩ := hplain
    cases cell with
    | nil => cases hne
    | cons c cell =>
        rw [List.any_cons, Bool.or_eq_false_iff] at hmarks
        refine ⟨c, cell, rfl, ?_⟩
        rintro rfl
        exact absurd hmarks.1 (by decide)

theorem rows_eq_rowsFrom {text : List Char} (h : text.head? ≠ some '\ufeff') :
    rows text = rowsFrom .fresh text := by
  unfold rows
  split
  · exact absurd rfl h
  · rfl

/-- **Tables read back.** The rows of a table are its heading and its entries, whatever these
hold. -/
theorem rows_tableText {columns : List (Column β)} (hcolumns : columns ≠ []) (things : List β) :
    rows (tableText columns things) =
      (Column.heading columns).map some :: things.map fun thing =>
          (Column.entries columns thing).map some := by
  have hentries : ∀ thing, Column.entries columns thing ≠ [] := by
    intro thing h
    exact hcolumns (List.map_eq_nil_iff.1 h)
  cases hheading : Column.heading columns with
  | nil => exact absurd (List.map_eq_nil_iff.1 hheading) hcolumns
  | cons name names =>
      have hhead : (tableText columns things).head? ≠ some '\ufeff' := by
        obtain ⟨c, rest, hcell, hc⟩ := exists_cellText_eq_cons name
        rw [tableText, hheading, rowText, hcell]
        intro h
        exact hc (Option.some.inj h)
      rw [rows_eq_rowsFrom hhead, tableText, hheading, rowsFrom_rowText (List.cons_ne_nil _ _),
        rowsFrom_flatMap_rowText hentries]

end InkAlgebra.Csv
