import Mathlib
import InkAlgebra.Command.Input
import InkAlgebra.Proofs.Csv.Reader
import InkAlgebra.Proofs.Json.BuiltIn

/-!
# Detection files

The same detections, once as a table and once as JSON. JSON gives them back as they were. A table
does so only if the types of its columns let it: a label like `02` in a column of whole numbers
comes back as `2`, and so do the labels of a page without any sign or letter. Then, and then only,
the two files do not mean the same.

This is said of every reader that types columns by their first cells, and every library that reads
the JSON it writes.

§1 is JSON, §2 the two files.
-/

namespace InkAlgebra

open Csv (Column tableText CellType)
open TableReader (detectionColumns numberColumns sampleSize)

/-! ## §1  JSON -/

variable {json : JsonFormat}

theorem Box.plain_toJson {b : Box Float} (hx : json.ReadsBack b.centerX)
    (hy : json.ReadsBack b.centerY) (hwidth : json.ReadsBack b.width)
    (hheight : json.ReadsBack b.height) : json.Plain (b.toJson json) := by
  refine .fields ?_
  simp only [fieldNames, List.zip_cons_cons, List.zip_nil_left, List.forall_mem_cons,
    List.not_mem_nil, false_imp_iff, implies_true, and_true]
  exact ⟨.number hx, .number hy, .number hwidth, .number hheight⟩

/-- Whether the numbers of a detection are the numbers that are read where they are written. -/
def Detection.ReadsBack (json : JsonFormat) (d : Detection Float) : Prop :=
  ∀ column ∈ numberColumns, json.ReadsBack (column.2 d)

namespace Detection

theorem ReadsBack.iff_all {d : Detection Float} : d.ReadsBack json ↔
    json.ReadsBack d.confidence ∧ json.ReadsBack d.box.centerX ∧ json.ReadsBack d.box.centerY ∧
      json.ReadsBack d.box.width ∧ json.ReadsBack d.box.height := by
  simp only [ReadsBack, numberColumns, List.forall_mem_cons, List.not_mem_nil, false_imp_iff,
    implies_true, and_true]

theorem plain_toJson {d : Detection Float} (h : d.ReadsBack json) : json.Plain (d.toJson json) := by
  obtain ⟨hconfidence, hx, hy, hwidth, hheight⟩ := ReadsBack.iff_all.1 h
  refine .fields ?_
  simp only [fieldNames, List.zip_cons_cons, List.zip_nil_left, List.forall_mem_cons,
    List.not_mem_nil, false_imp_iff, implies_true, and_true]
  exact ⟨.text _, .number hconfidence, Box.plain_toJson hx hy hwidth hheight⟩

theorem ofJson?_toJson (laws : json.Laws) {d : Detection Float} (h : d.ReadsBack json) :
    ofJson? json (d.toJson json) = some d := by
  obtain ⟨hconfidence, hx, hy, hwidth, hheight⟩ := ReadsBack.iff_all.1 h
  have hbox : Box.ofJson? json (d.box.toJson json) = some d.box := by
    rw [Box.ofJson?, Box.toJson, laws.record?_fields _ (laws.fields?_ofFields _)]
    show (do return ⟨← json.number? (json.ofNumber d.box.centerX),
      ← json.number? (json.ofNumber d.box.centerY), ← json.number? (json.ofNumber d.box.width),
      ← json.number? (json.ofNumber d.box.height)⟩ : Option (Box Float)) = some d.box
    rw [hx.2, hy.2, hwidth.2, hheight.2]
    rfl
  rw [ofJson?, toJson, laws.record?_fields _ (laws.fields?_ofFields _)]
  show (do return ⟨String.ofList (← json.text? (json.ofText d.label.toList)),
    ← json.number? (json.ofNumber d.confidence), ← Box.ofJson? json (d.box.toJson json)⟩ :
      Option (Detection Float)) = some d
  rw [laws.text?_ofText, hconfidence.2, hbox]
  show some (⟨String.ofList d.label.toList, d.confidence, d.box⟩ : Detection Float) = some d
  rw [String.ofList_toList]

/-- **Detections read back.** -/
theorem readJson?_writeJson (laws : json.Laws) {detections : List (Detection Float)}
    (h : ∀ d ∈ detections, d.ReadsBack json) :
    readJson? json (writeJson json detections) = some detections := by
  have hplain : json.Plain (json.ofItems (detections.map (toJson json))) := by
    refine .items ?_
    intro v hv
    obtain ⟨d, hd, rfl⟩ := List.mem_map.1 hv
    exact plain_toJson (h d hd)
  have hitems : (detections.map (toJson json)).mapM (ofJson? json) = some detections := by
    rw [mapM_eq_some_iff_forall₂, List.forall₂_map_left_iff, List.forall₂_same]
    exact fun d hd => ofJson?_toJson laws (h d hd)
  rw [readJson?, writeJson, laws.read?_write hplain]
  show ((json.items? _).bind fun items => items.mapM (ofJson? json)) = some detections
  rw [laws.items?_ofItems]
  exact hitems

end Detection

/-! ## §2  The two files -/

section

variable {formats : DetectionFormats} {folder : Folder} {path text : String}

/-- Reading looks at the folder and leaves it as it is. -/
theorem run_read_bind {β : Type} (folder : Folder) (path : String)
    (step : Option String → ExceptT Failure (StateM Folder) β) :
    ((liftM (Folder.disk.read path) : ExceptT Failure (StateM Folder) (Option String)) >>=
        step).run.run folder =
      (step (folder.read path)).run.run folder :=
  rfl

theorem load_table_eq_ok_iff (hkind : Path.extension? path = some "csv".toList)
    (hread : folder.read path = some text) {detections : List (Detection Float)} :
    (loadDetections formats Folder.disk path).run.run folder = (.ok detections, folder) ↔
      formats.table.readDetections text.toList = .ok detections := by
  unfold loadDetections
  rw [hkind]
  show (loadTable formats.table Folder.disk path).run.run folder = _ ↔ _
  unfold loadTable
  rw [run_read_bind, hread]
  dsimp only
  cases formats.table.readDetections text.toList with
  | ok found =>
      constructor
      · intro h
        exact congrArg Except.ok (Except.ok.inj (congrArg Prod.fst h))
      · intro h
        rw [Except.ok.inj h]
        rfl
  | error e =>
      refine iff_of_false ?_ (by rintro ⟨⟩)
      intro h
      cases e with
      | malformed => cases congrArg Prod.fst h
      | missing column row => cases congrArg Prod.fst h

theorem load_json_run (hkind : Path.extension? path = some "json".toList)
    (hread : folder.read path = some text) :
    (loadDetections formats Folder.disk path).run.run folder =
      ((Detection.readJson? formats.json text.toList).elim
        (.error (.malformedDetections path)) .ok, folder) := by
  unfold loadDetections
  rw [hkind]
  show (loadJson formats.json Folder.disk path).run.run folder = _
  unfold loadJson
  rw [run_read_bind, hread]
  dsimp only
  cases Detection.readJson? formats.json text.toList <;> rfl

end

section

variable {reader : TableReader}

/-- Whether each label of a page is written like its value in the type that the first labels
have. -/
def LabelsKept (typing : reader.Typing) (detections : List (Detection Float)) : Prop :=
  ∀ d ∈ detections,
    typing.Spells (typing.typeOfColumn (fun d => d.label.toList) detections) d.label.toList

/-- Whether the numbers in a column that is taken for one of whole numbers all are. -/
def NumbersKept (typing : reader.Typing) (write : Float → List Char)
    (detections : List (Detection Float)) : Prop :=
  ∀ column ∈ numberColumns,
    typing.typeOfColumn (fun d => write (column.2 d)) detections = .whole →
      ∀ d ∈ detections, ∃ n,
        typing.value? .whole (write (column.2 d)) = some (some (.whole n)) ∧
          Float.ofInt n = column.2 d

end

/-- **Tables and JSON.** From JSON come the detections that were written. From a table come the same
if and only if each label is written as its value is in the type that the first hundred labels have,
and no column of numbers is taken for one of whole numbers unless all numbers in it are. -/
theorem loadDetections_table_eq_json_iff (formats : DetectionFormats)
    (typing : formats.table.Typing) (laws : formats.json.Laws) {folder : Folder}
    {table json : String} (htable : Path.extension? table = some "csv".toList)
    (hjson : Path.extension? json = some "json".toList) {write : Float → List Char}
    {columns : List (Column (Detection Float))} (hcolumns : columns.Perm (detectionColumns write))
    {detections : List (Detection Float)}
    (hjsonNumbers : ∀ d ∈ detections, d.ReadsBack formats.json)
    (htableNumbers : ∀ d ∈ detections, ∀ column ∈ numberColumns,
      formats.table.asNumber? (.text (write (column.2 d))) = some (column.2 d))
    (hreadTable : folder.read table = some (String.ofList (tableText columns detections)))
    (hreadJson : folder.read json =
      some (String.ofList (Detection.writeJson formats.json detections))) :
    (loadDetections formats Folder.disk json).run.run folder = (.ok detections, folder) ∧
      ((loadDetections formats Folder.disk table).run.run folder =
          (loadDetections formats Folder.disk json).run.run folder ↔
        LabelsKept typing detections ∧ NumbersKept typing write detections) := by
  have hloaded : (loadDetections formats Folder.disk json).run.run folder =
      (.ok detections, folder) := by
    rw [load_json_run hjson hreadJson, String.toList_ofList,
      Detection.readJson?_writeJson laws hjsonNumbers]
    rfl
  refine ⟨hloaded, ?_⟩
  rw [hloaded, load_table_eq_ok_iff htable hreadTable, String.toList_ofList,
    TableReader.readDetections_tableText_eq_ok_iff typing hcolumns,
    TableReader.Typing.givesBack_label_iff]
  refine and_congr_right fun _ => forall₂_congr ?_
  intro column hcolumn
  exact typing.givesBack_number_iff fun d hd => htableNumbers d hd column hcolumn

/-- To the built-in reader one sign, letter or word among the first labels is enough. -/
theorem labelsKept_of_text {detections : List (Detection Float)} {d : Detection Float}
    (hmem : d ∈ detections.take sampleSize) (htext : CellType.ofCell d.label.toList = .text) :
    LabelsKept Csv.typing detections := by
  have hlabel : d.label.toList ∈ (detections.map fun d => d.label.toList).take sampleSize := by
    rw [← List.map_take]
    exact List.mem_map.2 ⟨d, hmem, rfl⟩
  have htype : Csv.typing.typeOfColumn (fun d : Detection Float => d.label.toList) detections =
      .text :=
    CellType.ofSample_eq_text hlabel htext
  intro e _
  rw [htype]
  exact Csv.typing.spells_text _

/-- Numbers that the built-in reader never takes for whole ones are safe. -/
theorem numbersKept_of_ne_whole {write : Float → List Char} {detections : List (Detection Float)}
    (h : ∀ d ∈ detections, ∀ column ∈ numberColumns,
      CellType.ofCell (write (column.2 d)) ≠ .whole) :
    NumbersKept Csv.typing write detections := by
  intro column hcolumn hwhole
  obtain ⟨content, hcontent, hcell⟩ := CellType.exists_ofCell_eq_ofSample (.inr hwhole)
  obtain ⟨d, hd, rfl⟩ := List.mem_map.1 (List.mem_of_mem_take hcontent)
  exact absurd (hcell.trans hwhole) (h d hd column hcolumn)

/-- A folder with both files of some detections. -/
def bothFiles (detections : List (Detection Float)) : Folder where
  files :=
    [(["d.csv".toList], String.ofList (tableText (detectionColumns plainText) detections)),
      (["d.json".toList], String.ofList (Detection.writeJson Json.format detections))]
  folders := []

theorem readsBack_of_float? {detections : List (Detection Float)}
    (h : ∀ d ∈ detections, ∀ column ∈ numberColumns,
      (Json.ofFloat (column.2 d)).float? = some (column.2 d)) :
    ∀ d ∈ detections, d.ReadsBack Json.format := by
  intro d hd column hcolumn
  exact (Json.readsBack_format_iff _).2 (h d hd column hcolumn)

/-- A digit with a zero in front of it. -/
def leadingZero : List (Detection Float) := [⟨"01", 0.5, ⟨0.5, 0.25, 0.125, 0.125⟩⟩]

/-- The table is one of whole numbers, and its label comes back as a whole number does. -/
theorem leadingZero_lost :
    (∀ d ∈ leadingZero, d.ReadsBack Json.format) ∧
      (∀ d ∈ leadingZero, d.label ≠ "" ∧ ∀ column ∈ numberColumns,
        readNumber? Float (plainText (column.2 d)) = some (column.2 d)) ∧
      ((loadDetections .builtIn Folder.disk "d.csv").run.run
        (bothFiles leadingZero)).1.toOption.map (·.map Detection.label) = some ["1"] ∧
      ((loadDetections .builtIn Folder.disk "d.json").run.run
        (bothFiles leadingZero)).1.toOption.map (·.map Detection.label) = some ["01"] := by
  refine ⟨readsBack_of_float? ?_, ?_, ?_, ?_⟩
  · decide +kernel
  · decide +kernel
  · decide +kernel
  · decide +kernel

/-- The same digit beside a letter. -/
def leadingZeroTimes : List (Detection Float) :=
  leadingZero ++ [⟨"x", 0.5, ⟨0.75, 0.25, 0.125, 0.125⟩⟩]

/-- One letter makes the column text, and both files say the same. -/
theorem leadingZeroTimes_kept :
    (loadDetections .builtIn Folder.disk "d.csv").run.run (bothFiles leadingZeroTimes) =
      (loadDetections .builtIn Folder.disk "d.json").run.run (bothFiles leadingZeroTimes) := by
  have hlabels : LabelsKept Csv.typing leadingZeroTimes :=
    labelsKept_of_text (List.mem_cons_of_mem _ List.mem_cons_self) (by decide +kernel)
  have hnumbers : NumbersKept Csv.typing plainText leadingZeroTimes :=
    numbersKept_of_ne_whole (by decide +kernel)
  have hjson : ∀ d ∈ leadingZeroTimes, d.ReadsBack Json.format :=
    readsBack_of_float? (by decide +kernel)
  have htable : ∀ d ∈ leadingZeroTimes, ∀ column ∈ numberColumns,
      readNumber? Float (plainText (column.2 d)) = some (column.2 d) := by
    decide +kernel
  have hkinds : Path.extension? "d.csv" = some "csv".toList ∧
      Path.extension? "d.json" = some "json".toList := by
    decide +kernel
  exact (loadDetections_table_eq_json_iff .builtIn Csv.typing Json.laws hkinds.1 hkinds.2 (.refl _)
    hjson htable (by decide +kernel) (by decide +kernel)).2.2 ⟨hlabels, hnumbers⟩

end InkAlgebra
