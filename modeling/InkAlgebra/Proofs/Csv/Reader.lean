import Mathlib
import InkAlgebra.Csv.Reader
import InkAlgebra.Proofs.Csv.Columns

/-!
# The typing of the built-in reader

The built-in reader of tables is one that types columns by their first cells (`Csv.typing`): it
finds columns by their names, reads back what was written in them, and keeps numbers apart from
truth values. One text among the cells that decide makes a column text, and a column of whole
numbers has nothing else among them.

§1 is numbers as texts, §2 types of columns, §3 the reader.
-/

namespace InkAlgebra

/-! ## §1  Numbers as texts -/

/-- A number starts with a digit, a sign, a point or a letter of a name. -/
theorem readNumber?_eq_none {c : Char} (hsign : c ≠ '-' ∧ c ≠ '+') (hpoint : c ≠ '.')
    (hdigit : c.isDigit = false) (hname : c.toLower ≠ 'i' ∧ c.toLower ≠ 'n') (rest : List Char) :
    readNumber? Float (c :: rest) = none := by
  have hsame : Literal.sign (c :: rest) = (false, c :: rest) := by
    unfold Literal.sign
    split
    · rename_i heq
      cases heq
      exact absurd rfl hsign.1
    · rename_i heq
      cases heq
      exact absurd rfl hsign.2
    · rfl
  have hhead : ∀ (name : String) (d : Char) (tail : List Char), name.toList = d :: tail →
      c.toLower ≠ d → String.ofList ((c :: rest).map Char.toLower) ≠ name := by
    intro name d tail hlist hne heq
    rw [← heq, String.toList_ofList] at hlist
    exact hne (List.cons.inj hlist).1
  unfold readNumber? Literal.ofText?
  rw [hsame]
  dsimp only
  split
  · rename_i heq
    exact absurd heq (hhead _ 'i' _ rfl hname.1)
  · rename_i heq
    exact absurd heq (hhead _ 'i' _ rfl hname.1)
  · rename_i heq
    exact absurd heq (hhead _ 'n' _ rfl hname.2)
  · unfold Literal.decimal?
    rw [List.takeWhile_cons_of_neg (by rw [hdigit]; decide),
      List.dropWhile_cons_of_neg (by rw [hdigit]; decide)]
    split
    rename_i heq
    split at heq
    · rename_i hdot
      cases hdot
      exact absurd rfl hpoint
    · cases heq
      rfl

theorem isDigit_eq_false_of_toLower {c d : Char} (h : c.toLower = d) (hd : d.isDigit = false) :
    c.isDigit = false := by
  by_contra hdigit
  rw [Bool.not_eq_false] at hdigit
  have hsame : c.toLower = c := by
    simp only [Char.isDigit, Char.toLower] at *
    grind
  rw [← h, hsame, hdigit] at hd
  cases hd

namespace Csv

namespace CellType

/-- A text for a truth value is no number. -/
theorem truth?_eq_none_of_readNumber? {content : List Char} {x : Float}
    (h : readNumber? Float content = some x) :
    truth? content = none := by
  have hnot : ∀ (name : String) (d : Char) (tail : List Char), name.toList = d :: tail →
      d ∈ ['t', 'f'] → String.ofList (content.map Char.toLower) ≠ name := by
    intro name d tail hlist hd heq
    rw [← heq, String.toList_ofList] at hlist
    cases content with
    | nil => cases hlist
    | cons c rest =>
        have hlower : c.toLower = d := (List.cons.inj hlist).1
        have hne : ∀ e : Char, e.toLower ∉ ['t', 'f'] → c ≠ e := by
          rintro e he rfl
          rw [hlower] at he
          exact he hd
        have hletter : d.isDigit = false ∧ d ≠ 'i' ∧ d ≠ 'n' := by
          fin_cases hd <;> decide
        rw [readNumber?_eq_none ⟨hne _ (by decide), hne _ (by decide)⟩ (hne _ (by decide))
          (isDigit_eq_false_of_toLower hlower hletter.1) (hlower ▸ hletter.2)] at h
        cases h
  unfold truth?
  split
  · rename_i heq
    exact absurd heq (hnot _ 't' _ rfl (by decide))
  · rename_i heq
    exact absurd heq (hnot _ 'f' _ rfl (by decide))
  · rfl

theorem ofNumeric_of_readNumber? {content : List Char} {x : Float}
    (h : readNumber? Float content = some x) (value? : List Char → Option Value) :
    Value.ofText?.ofNumeric content value? = (value? content).map some := by
  have hinked : content.dropWhile (fun c => c = ' ' || c = '\t') = content := by
    cases content with
    | nil => rfl
    | cons c rest =>
        refine List.dropWhile_cons_of_neg ?_
        intro hblank
        rw [Bool.or_eq_true, decide_eq_true_iff, decide_eq_true_iff] at hblank
        rcases hblank with rfl | rfl
        · rw [readNumber?_eq_none ⟨by decide, by decide⟩ (by decide) (by decide)
            ⟨by decide, by decide⟩] at h
          cases h
        · rw [readNumber?_eq_none ⟨by decide, by decide⟩ (by decide) (by decide)
            ⟨by decide, by decide⟩] at h
          cases h
  unfold Value.ofText?.ofNumeric
  dsimp only
  rw [hinked]
  cases content <;> rfl

/-! ## §2  Types of columns -/

/-- Only equal types join to truth values, and only these to whole numbers. -/
theorem eq_of_join_eq {a b t : CellType} (ht : t = truth ∨ t = whole) (h : join a b = t) :
    a = t := by
  rcases ht with rfl | rfl
  · cases a <;> cases b <;> first | rfl | cases h
  · cases a <;> cases b <;> first | rfl | cases h

theorem eq_of_foldl_join_eq {types : List CellType} {first t : CellType}
    (ht : t = truth ∨ t = whole) (h : types.foldl join first = t) : first = t := by
  induction types generalizing first with
  | nil => exact h
  | cons u types ih => exact eq_of_join_eq ht (ih h)

theorem join_eq_text {a b : CellType} (h : a = text ∨ b = text) : join a b = text := by
  rcases h with rfl | rfl
  · cases b <;> rfl
  · cases a <;> rfl

theorem foldl_join_eq_text {types : List CellType} {t : CellType} (h : t = text ∨ text ∈ types) :
    types.foldl join t = text := by
  induction types generalizing t with
  | nil =>
      rcases h with rfl | h
      · rfl
      · cases h
  | cons u types ih =>
      refine ih ?_
      rcases h with rfl | h
      · exact .inl (join_eq_text (.inl rfl))
      · rcases List.mem_cons.1 h with rfl | h
        · exact .inl (join_eq_text (.inr rfl))
        · exact .inr h

/-- One text among the cells that decide makes a column text. -/
theorem ofSample_eq_text {contents : List (List Char)} {content : List Char}
    (hmem : content ∈ contents) (htext : ofCell content = text) : ofSample contents = text := by
  cases contents with
  | nil => cases hmem
  | cons first contents =>
      refine foldl_join_eq_text ?_
      rcases List.mem_cons.1 hmem with rfl | hmem
      · exact .inl htext
      · exact .inr (htext ▸ List.mem_map_of_mem hmem)

/-- A column of whole numbers has one in its first cell, and one of truth values a truth value. -/
theorem exists_ofCell_eq_ofSample {contents : List (List Char)}
    (h : ofSample contents = truth ∨ ofSample contents = whole) :
    ∃ content ∈ contents, ofCell content = ofSample contents := by
  cases contents with
  | nil => exact absurd h (by decide)
  | cons first contents => exact ⟨first, List.mem_cons_self, eq_of_foldl_join_eq h rfl⟩

theorem ofCell_ne_truth {content : List Char} {x : Float}
    (h : readNumber? Float content = some x) : ofCell content ≠ truth := by
  unfold ofCell
  rw [truth?_eq_none_of_readNumber? h]
  split
  · rename_i hsome
    cases hsome
  · split
    · rintro ⟨⟩
    · split <;> rintro ⟨⟩

end CellType

/-! ## §3  The reader -/

variable {β : Type}

/-- Columns are found by their names. -/
theorem column?_of_mem {columns : List (Column β)} (hnames : (columns.map Prod.fst).Nodup)
    {column : Column β} (hmem : column ∈ columns) (things : List β) :
    column? ((Column.heading columns).map some)
        (things.map fun thing => (Column.entries columns thing).map some) column.1 =
      some ((things.map column.2).map some) := by
  obtain ⟨i, hi, hcolumn⟩ := List.getElem_of_mem hmem
  have hfind : ((Column.heading columns).map some).findIdx?
      (fun cell => cell = some column.1.toList) = some i := by
    refine List.findIdx?_eq_some_iff_getElem.2 ⟨by simpa [Column.heading] using hi, ?_, ?_⟩
    · simp [Column.heading, hcolumn]
    · intro j hj hfound
      have hname : columns[j].1 = columns[i].1 := by
        rw [hcolumn]
        refine String.toList_injective ?_
        simpa [Column.heading] using hfound
      have hlength : (columns.map Prod.fst).length = columns.length := List.length_map _
      have hapart := List.pairwise_iff_getElem.1 hnames j i (by omega) (by omega) hj
      rw [List.getElem_map, List.getElem_map] at hapart
      exact hapart hname
  rw [column?, hfind, Option.map_some, List.map_map, List.map_map]
  refine congrArg some (List.map_congr_left ?_)
  intro thing _
  simp [Column.entries, hi, hcolumn]

theorem ofColumn?_map_some (sample : ℕ) (contents : List (List Char)) :
    Value.ofColumn? sample (contents.map some) =
      contents.mapM (Value.ofText? (CellType.ofSample (contents.take sample))) := by
  have hcells : ((contents.map some).take sample).filterMap id = contents.take sample := by
    rw [← List.map_take, List.filterMap_map]
    exact List.filterMap_some
  rw [Value.ofColumn?, hcells]
  exact List.mapM_map

theorem select?_tableText {columns named : List (Column β)} (sample : ℕ) (things : List β)
    (hperm : columns.Perm named) (hnamed : named.map Prod.fst = TableReader.columnNames) :
    select? sample TableReader.columnNames (tableText columns things) =
      named.mapM fun column => (things.map column.2).mapM
        (Value.ofText? (CellType.ofSample ((things.map column.2).take sample))) := by
  have hnodup : (columns.map Prod.fst).Nodup := by
    rw [(hperm.map Prod.fst).nodup_iff, hnamed]
    decide
  have hne : columns ≠ [] := by
    rintro rfl
    rw [hperm.symm.eq_nil] at hnamed
    cases hnamed
  have hread : (TableReader.columnNames.mapM fun name =>
      (column? ((Column.heading columns).map some)
        (things.map fun d => (Column.entries columns d).map some) name).bind
          (Value.ofColumn? sample)) =
      named.mapM fun column => (things.map column.2).mapM
        (Value.ofText? (CellType.ofSample ((things.map column.2).take sample))) := by
    rw [← hnamed, List.mapM_map]
    refine mapM_congr ?_
    intro column hmem
    rw [Function.comp_apply, column?_of_mem hnodup (hperm.mem_iff.2 hmem), Option.bind_some,
      ofColumn?_map_some]
  have hheading : isBlankRow ((Column.heading columns).map some) = false := by
    refine decide_eq_false ?_
    intro hblank
    have hmem : none ∈ (Column.heading columns).map some := by
      rw [hblank]
      exact List.mem_singleton_self none
    obtain ⟨_, _, hsome⟩ := List.mem_map.1 hmem
    cases hsome
  have hwidth : (things.map fun d => (Column.entries columns d).map some).any
      (fun row => decide (((Column.heading columns).map some).length < row.length)) = false := by
    simp [Column.heading, Column.entries]
  unfold select?
  rw [rows_tableText hne, List.dropWhile_cons_of_neg (by rw [hheading]; decide)]
  dsimp only
  rw [hwidth, hread]
  rfl

theorem ofText?_whole {content : List Char} {v : Value}
    (h : Value.ofText? .whole content = some (some v)) : ∃ n, v = .whole n := by
  unfold Value.ofText? Value.ofText?.ofNumeric at h
  dsimp only at h
  split at h
  · cases h
  · obtain ⟨w, hw, hv⟩ := Option.map_eq_some_iff.1 h
    obtain ⟨n, _, rfl⟩ := Option.map_eq_some_iff.1 hw
    exact ⟨n, (Option.some.inj hv).symm⟩

theorem ofText?_number {content : List Char} {x : Float}
    (h : readNumber? Float content = some x) :
    Value.ofText? .number content = some (some (.number x)) := by
  show Value.ofText?.ofNumeric content
    (fun digits => (readNumber? Float digits).map .number) = _
  rw [CellType.ofNumeric_of_readNumber? h, h]
  rfl

/-- The built-in reader types columns by their first cells. -/
def typing : reader.Typing where
  typeOf := CellType.ofSample
  value? := Value.ofText?
  select?_tableText := select?_tableText
  value?_text _ := rfl
  value?_whole := ofText?_whole
  value?_number := ofText?_number
  typeOf_numbers := by
    intro contents hne hnumbers htruth
    obtain ⟨content, hmem, hcell⟩ := CellType.exists_ofCell_eq_ofSample (.inl htruth)
    obtain ⟨x, hx⟩ := Option.isSome_iff_exists.1 (hnumbers content hmem)
    exact CellType.ofCell_ne_truth hx (hcell.trans htruth)
  asText_text _ := rfl
  asNumber?_number _ := rfl
  asNumber?_whole _ := rfl

end Csv

end InkAlgebra
