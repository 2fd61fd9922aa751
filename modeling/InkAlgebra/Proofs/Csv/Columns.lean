import Mathlib
import InkAlgebra.Csv.Detections
import InkAlgebra.Error
import InkAlgebra.Proofs.Csv.Table
import InkAlgebra.Proofs.Steps

/-!
# What a table of detections gives back

A reader of tables types each column by its first cells (`TableReader.Typing`). Read as a value of
that type, and taken as a text or a number again, a cell may be worth something else than what was
written, or nothing. The table gives the detections back if and only if every cell of the six
columns is worth its entry.

§1 is readers, §2 columns, §3 tables, §4 columns of numbers and of labels.
-/

namespace InkAlgebra

/-! ## §1  Readers -/

namespace TableReader

open Csv (CellType Column Value tableText)

/-- What is known of a reader that types a column by the texts in its first cells. Each of the types
has its own way to read a text. -/
structure Typing (reader : TableReader) where
  typeOf : List (List Char) → CellType
  /-- What a text is worth in a column: it may not fit the type, or be worth nothing. -/
  value? : CellType → List Char → Option (Option Value)
  /-- A table with the six columns is read as the texts that its cells were written for, column by
  column. -/
  select?_tableText : ∀ {β : Type} {columns named : List (Column β)} (sample : ℕ) (things : List β),
    columns.Perm named → named.map Prod.fst = columnNames →
      reader.select? sample columnNames (tableText columns things) =
        named.mapM fun column => (things.map column.2).mapM
          (value? (typeOf ((things.map column.2).take sample)))
  value?_text : ∀ content, value? .text content = some (some (.text content))
  value?_whole : ∀ {content v}, value? .whole content = some (some v) → ∃ n, v = .whole n
  /-- A text that is a number by itself is the same number in a column of numbers. -/
  value?_number : ∀ {content x}, reader.asNumber? (.text content) = some x →
    value? .number content = some (some (.number x))
  /-- Numbers are no truth values. -/
  typeOf_numbers : ∀ {contents}, contents ≠ [] →
    (∀ content ∈ contents, (reader.asNumber? (.text content)).isSome) → typeOf contents ≠ .truth
  asText_text : ∀ content, reader.asText (.text content) = content
  asNumber?_number : ∀ x, reader.asNumber? (.number x) = some x
  asNumber?_whole : ∀ n, reader.asNumber? (.whole n) = some (Float.ofInt n)

variable {reader : TableReader} {β γ : Type}

namespace Typing

/-- The type of the column that holds some text of each thing. -/
def typeOfColumn (typing : reader.Typing) (text : β → List Char) (things : List β) : CellType :=
  typing.typeOf ((things.map text).take sampleSize)

/-- Whether a column gives back what it is to hold: each cell, read as the type of the column, is
worth its entry. -/
def GivesBack (typing : reader.Typing) (take? : Value → Option γ) (text : β → List Char)
    (entry : β → γ) (things : List β) : Prop :=
  ∀ thing ∈ things, ∃ v,
    typing.value? (typing.typeOfColumn text things) (text thing) = some v ∧
      v.bind take? = some (entry thing)

end Typing

/-! ## §2  Columns -/

theorem entries_eq_ok_iff {name : String} {take? : Value → Option γ}
    {values : List (Option Value)} {es : List γ} :
    entries name take? values = .ok es ↔
      List.Forall₂ (fun v e => v.bind take? = some e) values es := by
  unfold entries
  rw [mapM_eq_ok_iff_forall₂]
  conv_rhs => rw [← List.zipIdx_map_fst 0 values, List.forall₂_map_left_iff]
  constructor
  · refine List.Forall₂.imp ?_
    rintro ⟨v, row⟩ e h
    dsimp only at h ⊢
    cases hv : v.bind take? with
    | none =>
        rw [hv] at h
        cases h
    | some entry =>
        rw [hv] at h
        rw [Except.ok.inj h]
  · refine List.Forall₂.imp ?_
    rintro ⟨v, row⟩ e h
    dsimp only at h ⊢
    rw [h]

theorem length_entries {name : String} {take? : Value → Option γ} {values : List (Option Value)}
    {es : List γ} (h : entries name take? values = .ok es) : es.length = values.length :=
  (entries_eq_ok_iff.1 h).length_eq.symm

namespace Typing

/-- The values of the column that holds some text of each thing. -/
def column? (typing : reader.Typing) (text : β → List Char) (things : List β) :
    Option (List (Option Value)) :=
  (things.map text).mapM (typing.value? (typing.typeOfColumn text things))

variable {typing : reader.Typing}

theorem length_of_column? {text : β → List Char} {things : List β} {values : List (Option Value)}
    (h : typing.column? text things = some values) : values.length = things.length := by
  rw [← (mapM_eq_some_iff_forall₂.1 h).length_eq, List.length_map]

theorem givesBack_iff (name : String) {take? : Value → Option γ} {text : β → List Char}
    {entry : β → γ} {things : List β} :
    typing.GivesBack take? text entry things ↔ ∃ values,
      typing.column? text things = some values ∧
        entries name take? values = .ok (things.map entry) := by
  unfold GivesBack column?
  simp only [mapM_eq_some_iff_forall₂, List.forall₂_map_left_iff, entries_eq_ok_iff,
    List.forall₂_map_right_iff]
  exact exists_forall₂_iff.symm

end Typing

/-! ## §3  Tables -/

def numberColumns : List (String × (Detection Float → Float)) :=
  [("confidence", fun d => d.confidence), ("center_x", fun d => d.box.centerX),
    ("center_y", fun d => d.box.centerY), ("width", fun d => d.box.width),
    ("height", fun d => d.box.height)]

/-- The columns of detections, given how numbers are written. -/
def detectionColumns (write : Float → List Char) : List (Column (Detection Float)) :=
  ("label", fun d => d.label.toList) ::
    numberColumns.map fun column => (column.1, fun d => write (column.2 d))

/-- A table of detections is read column by column. -/
theorem readDetections_tableText (typing : reader.Typing) {write : Float → List Char}
    {columns : List (Column (Detection Float))} (hcolumns : columns.Perm (detectionColumns write))
    (detections : List (Detection Float)) :
    reader.readDetections (tableText columns detections) =
      ((detectionColumns write).mapM fun column => typing.column? column.2 detections).elim
        (.error .malformed) reader.ofColumns := by
  unfold readDetections
  rw [typing.select?_tableText sampleSize detections hcolumns rfl]
  show _ = ((detectionColumns write).mapM fun column => (detections.map column.2).mapM
    (typing.value? (typing.typeOf ((detections.map column.2).take sampleSize)))).elim _ _
  cases (detectionColumns write).mapM fun column => (detections.map column.2).mapM
    (typing.value? (typing.typeOf ((detections.map column.2).take sampleSize))) <;> rfl

theorem ofColumns_eq_ok_iff {label confidence x y width height : List (Option Value)}
    {detections : List (Detection Float)}
    (hlengths : ∀ values ∈ [label, confidence, x, y, width, height],
      values.length = detections.length) :
    reader.ofColumns [label, confidence, x, y, width, height] = .ok detections ↔
      entries "label" (some ∘ reader.asText) label =
          .ok (detections.map fun d => d.label.toList) ∧
        entries "confidence" reader.asNumber? confidence =
          .ok (detections.map fun d => d.confidence) ∧
        entries "center_x" reader.asNumber? x = .ok (detections.map fun d => d.box.centerX) ∧
        entries "center_y" reader.asNumber? y = .ok (detections.map fun d => d.box.centerY) ∧
        entries "width" reader.asNumber? width = .ok (detections.map fun d => d.box.width) ∧
        entries "height" reader.asNumber? height =
          .ok (detections.map fun d => d.box.height) := by
  simp only [List.forall_mem_cons, List.not_mem_nil, false_imp_iff, implies_true, and_true]
    at hlengths
  obtain ⟨hl, hc, hx, hy, hw, hh⟩ := hlengths
  constructor
  · intro h
    obtain ⟨labels, hlabels, h⟩ := exists_of_bind_eq_ok h
    obtain ⟨confidences, hconfidences, h⟩ := exists_of_bind_eq_ok h
    obtain ⟨xs, hxs, h⟩ := exists_of_bind_eq_ok h
    obtain ⟨ys, hys, h⟩ := exists_of_bind_eq_ok h
    obtain ⟨widths, hwidths, h⟩ := exists_of_bind_eq_ok h
    obtain ⟨heights, hheights, h⟩ := exists_of_bind_eq_ok h
    have hrows := Except.ok.inj h
    rw [hlabels, hconfidences, hxs, hys, hwidths, hheights]
    have hlabelCount := length_entries hlabels
    have hconfidenceCount := length_entries hconfidences
    have hxCount := length_entries hxs
    have hyCount := length_entries hys
    have hwidthCount := length_entries hwidths
    have hheightCount := length_entries hheights
    -- The rows are as many as the shortest column; all six are as long as the list.
    generalize detections.length = n at *
    subst hrows
    refine ⟨?_, ?_, ?_, ?_, ?_, ?_⟩ <;> refine congrArg Except.ok (List.ext_getElem ?_ ?_) <;>
      simp only [List.length_map, List.length_zipWith, List.length_zip, List.getElem_map,
        List.getElem_zipWith, List.getElem_zip, String.toList_ofList, implies_true] <;>
      omega
  · rintro ⟨hlabels, hconfidences, hxs, hys, hwidths, hheights⟩
    unfold ofColumns
    dsimp only
    rw [hlabels, hconfidences, hxs, hys, hwidths, hheights]
    refine congrArg Except.ok (List.ext_getElem ?_ ?_)
    · simp
    · simp

/-- **What comes back.** A table gives the detections back that were written in it exactly if each
of the six columns does. -/
theorem readDetections_tableText_eq_ok_iff (typing : reader.Typing) {write : Float → List Char}
    {columns : List (Column (Detection Float))} (hcolumns : columns.Perm (detectionColumns write))
    (detections : List (Detection Float)) :
    reader.readDetections (tableText columns detections) = .ok detections ↔
      typing.GivesBack (some ∘ reader.asText) (fun d => d.label.toList) (fun d => d.label.toList)
          detections ∧
        ∀ column ∈ numberColumns,
          typing.GivesBack reader.asNumber? (fun d => write (column.2 d)) column.2 detections := by
  have hlength := @Typing.length_of_column? reader (Detection Float) typing
  simp only [numberColumns, List.forall_mem_cons, List.not_mem_nil, false_imp_iff, implies_true,
    and_true]
  rw [readDetections_tableText typing hcolumns, Typing.givesBack_iff "label",
    Typing.givesBack_iff "confidence", Typing.givesBack_iff "center_x",
    Typing.givesBack_iff "center_y", Typing.givesBack_iff "width", Typing.givesBack_iff "height"]
  constructor
  · intro h
    cases hvalues : (detectionColumns write).mapM fun column =>
        typing.column? column.2 detections with
    | none =>
        rw [hvalues] at h
        cases h
    | some values =>
        rw [hvalues] at h
        have hall := mapM_eq_some_iff_forall₂.1 hvalues
        simp only [detectionColumns, numberColumns, List.map_cons, List.map_nil,
          List.forall₂_cons_left_iff, List.forall₂_nil_left_iff] at hall
        obtain ⟨label, _, hlabel, ⟨confidence, _, hconfidence, ⟨x, _, hx, ⟨y, _, hy,
          ⟨width, _, hwidth, ⟨height, _, hheight, rfl, rfl⟩, rfl⟩, rfl⟩, rfl⟩, rfl⟩, rfl⟩ := hall
        obtain ⟨hlabels, hconfidences, hxs, hys, hwidths, hheights⟩ := (ofColumns_eq_ok_iff (by
          simp [hlength hlabel, hlength hconfidence, hlength hx, hlength hy, hlength hwidth,
            hlength hheight])).1 h
        exact ⟨⟨label, hlabel, hlabels⟩, ⟨confidence, hconfidence, hconfidences⟩, ⟨x, hx, hxs⟩,
          ⟨y, hy, hys⟩, ⟨width, hwidth, hwidths⟩, ⟨height, hheight, hheights⟩⟩
  · rintro ⟨⟨label, hlabel, hlabels⟩, ⟨confidence, hconfidence, hconfidences⟩, ⟨x, hx, hxs⟩,
      ⟨y, hy, hys⟩, ⟨width, hwidth, hwidths⟩, ⟨height, hheight, hheights⟩⟩
    have hvalues : ((detectionColumns write).mapM fun column =>
        typing.column? column.2 detections) = some [label, confidence, x, y, width, height] :=
      mapM_eq_some_iff_forall₂.2 (.cons hlabel (.cons hconfidence (.cons hx (.cons hy
        (.cons hwidth (.cons hheight .nil))))))
    rw [hvalues]
    refine (ofColumns_eq_ok_iff ?_).2 ⟨hlabels, hconfidences, hxs, hys, hwidths, hheights⟩
    simp [hlength hlabel, hlength hconfidence, hlength hx, hlength hy, hlength hwidth,
      hlength hheight]

/-! ## §4  Columns of numbers and of labels -/

namespace Typing

variable (typing : reader.Typing)

/-- **Columns of numbers.** Cells that are numbers for themselves are given back as such, unless the
column is taken for one of whole numbers. -/
theorem givesBack_number_iff {text : β → List Char} {number : β → Float} {things : List β}
    (hread : ∀ d ∈ things, reader.asNumber? (.text (text d)) = some (number d)) :
    typing.GivesBack reader.asNumber? text number things ↔
      (typing.typeOfColumn text things = .whole → ∀ d ∈ things, ∃ n,
        typing.value? .whole (text d) = some (some (.whole n)) ∧ Float.ofInt n = number d) := by
  have htruth : things ≠ [] → typing.typeOfColumn text things ≠ .truth := by
    intro hne
    refine typing.typeOf_numbers ?_ ?_
    · rw [Ne, List.take_eq_nil_iff, List.map_eq_nil_iff]
      exact not_or.2 ⟨by decide, hne⟩
    · intro content hcontent
      obtain ⟨d, hd, rfl⟩ := List.mem_map.1 (List.mem_of_mem_take hcontent)
      rw [hread d hd]
      rfl
  unfold GivesBack
  cases htype : typing.typeOfColumn text things with
  | truth =>
      refine iff_of_true ?_ (by rintro ⟨⟩)
      intro d hd
      exact absurd htype (htruth (List.ne_nil_of_mem hd))
  | text =>
      refine iff_of_true ?_ (by rintro ⟨⟩)
      intro d hd
      exact ⟨_, typing.value?_text (text d), hread d hd⟩
  | number =>
      refine iff_of_true ?_ (by rintro ⟨⟩)
      intro d hd
      exact ⟨_, typing.value?_number (hread d hd), typing.asNumber?_number (number d)⟩
  | whole =>
      simp only [true_imp_iff]
      refine forall₂_congr ?_
      intro d hd
      constructor
      · rintro ⟨v, hv, hnumber⟩
        obtain ⟨w, rfl, hw⟩ := Option.bind_eq_some_iff.1 hnumber
        obtain ⟨n, rfl⟩ := typing.value?_whole hv
        rw [typing.asNumber?_whole n] at hw
        exact ⟨n, hv, Option.some.inj hw⟩
      · rintro ⟨n, hn, hnumber⟩
        refine ⟨_, hn, ?_⟩
        rw [← hnumber]
        exact typing.asNumber?_whole n

/-- Whether a text is written like the value it is read as: `2` is as a whole number, `02` is
not. -/
def Spells (type : CellType) (content : List Char) : Prop :=
  ∃ v, typing.value? type content = some (some v) ∧ reader.asText v = content

theorem spells_text (content : List Char) : typing.Spells .text content :=
  ⟨.text content, typing.value?_text content, typing.asText_text content⟩

theorem givesBack_label_iff {label : β → List Char} {things : List β} :
    typing.GivesBack (some ∘ reader.asText) label label things ↔
      ∀ d ∈ things, typing.Spells (typing.typeOfColumn label things) (label d) := by
  refine forall₂_congr ?_
  intro d _
  constructor
  · rintro ⟨v, hv, hlabel⟩
    cases v with
    | none => cases hlabel
    | some v => exact ⟨v, hv, Option.some.inj hlabel⟩
  · rintro ⟨v, hv, hlabel⟩
    exact ⟨some v, hv, congrArg some hlabel⟩

end Typing

end TableReader

end InkAlgebra
