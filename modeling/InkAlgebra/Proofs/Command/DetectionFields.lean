import Mathlib
import InkAlgebra.Proofs.Command.DetectionFiles

/-!
# Detections as JSON

What is written for some detections is read as them, whatever characters are in their labels. The
fields of a detection and of its box may come in any order and with other fields between them; none
of those that are asked for may be missing or repeated, and if it is so in one detection, then none
of the file is loaded.

§1 is other ways to write a detection, §2 detections that lack a field, §3 files.
-/

namespace InkAlgebra

open JsonFormat (Extends HasFields pick?)

variable {json : JsonFormat}

/-! ## §1  Other ways to write a detection -/

namespace Box

theorem ofJson?_extends (laws : json.Laws) {v v' : json.Value}
    {fields fields' : List (String × json.Value)} (hv : json.fields? v = some fields)
    (hv' : json.fields? v' = some fields') (h : Extends fieldNames fields fields') :
    ofJson? json v' = ofJson? json v := by
  rw [ofJson?, ofJson?, laws.record?_fields _ hv, laws.record?_fields _ hv', h.pick?_eq]

theorem hasFields_of_ofJson? (laws : json.Laws) {v : json.Value} {b : Box Float}
    (h : ofJson? json v = some b) : HasFields fieldNames v := by
  obtain ⟨found, hfound, h⟩ := Option.bind_eq_some_iff.1 h
  split at h
  · rename_i x y width height
    exact laws.hasFields_of_record?
      (show json.record? fieldNames v = some ([x, y, width, height].map some) from hfound)
  · cases h

end Box

namespace Detection

theorem ofJson?_eq_some_iff {v : json.Value} {d : Detection Float} :
    ofJson? json v = some d ↔ ∃ label confidence box,
      json.record? fieldNames v = some ([label, confidence, box].map some) ∧
        json.text? label = some d.label.toList ∧ json.number? confidence = some d.confidence ∧
        Box.ofJson? json box = some d.box := by
  constructor
  · intro h
    obtain ⟨found, hfound, h⟩ := Option.bind_eq_some_iff.1 h
    split at h
    · rename_i label confidence box
      obtain ⟨text, htext, h⟩ := Option.bind_eq_some_iff.1 h
      obtain ⟨x, hx, h⟩ := Option.bind_eq_some_iff.1 h
      obtain ⟨b, hb, h⟩ := Option.bind_eq_some_iff.1 h
      obtain rfl := Option.some.inj h
      exact ⟨label, confidence, box, hfound, by rw [htext, String.toList_ofList], hx, hb⟩
    · cases h
  · rintro ⟨label, confidence, box, hfound, htext, hx, hb⟩
    rw [ofJson?, hfound]
    show (do return ⟨String.ofList (← json.text? label), ← json.number? confidence,
      ← Box.ofJson? json box⟩ : Option (Detection Float)) = some d
    rw [htext, hx, hb]
    show some (⟨String.ofList d.label.toList, d.confidence, d.box⟩ : Detection Float) = some d
    rw [String.ofList_toList]

variable (json) in
/-- All that a value in a detection is ever read as. -/
def readings (v : json.Value) : Option (List Char) × Option Float × Option (Box Float) :=
  (json.text? v, json.number? v, Box.ofJson? json v)

/-- What the values of its fields are read as is all that a detection is made of. -/
theorem ofJson?_of_readings_eq {v v' : json.Value}
    (h : (json.record? fieldNames v').map (List.map (Option.map (readings json))) =
      (json.record? fieldNames v).map (List.map (Option.map (readings json))))
    {d : Detection Float} (hd : ofJson? json v = some d) : ofJson? json v' = some d := by
  obtain ⟨label, confidence, box, hfound, htext, hx, hb⟩ := ofJson?_eq_some_iff.1 hd
  rw [hfound] at h
  obtain ⟨values, hvalues, hsame⟩ := Option.map_eq_some_iff.1 h
  simp only [List.map_cons, List.map_nil, Option.map_some, List.map_eq_cons_iff,
    List.map_eq_nil_iff, Option.map_eq_some_iff] at hsame
  obtain ⟨_, _, rfl, ⟨label', rfl, hlabel⟩, _, _, rfl, ⟨confidence', rfl, hconfidence⟩, _, _, rfl,
    ⟨box', rfl, hbox⟩, rfl⟩ := hsame
  refine ofJson?_eq_some_iff.2 ⟨label', confidence', box', hvalues, ?_, ?_, ?_⟩
  · exact (congrArg Prod.fst hlabel).trans htext
  · exact (congrArg (·.2.1) hconfidence).trans hx
  · exact (congrArg (·.2.2) hbox).trans hb

/-- Whether a value is another one, or both are objects that are the same box but for the order of
its fields and what else is between them. -/
inductive BoxRespelled : json.Value → json.Value → Prop
  | same (v : json.Value) : BoxRespelled v v
  | box {v v' : json.Value} {fields fields' : List (String × json.Value)}
      (hv : json.fields? v = some fields) (hv' : json.fields? v' = some fields')
      (h : Extends Box.fieldNames fields fields') : BoxRespelled v v'

theorem BoxRespelled.readings_eq (laws : json.Laws) {v v' : json.Value}
    (h : BoxRespelled v v') : readings json v' = readings json v := by
  cases h with
  | same => rfl
  | box hv hv' h =>
      obtain ⟨htext, hnumber⟩ := laws.apart hv
      obtain ⟨htext', hnumber'⟩ := laws.apart hv'
      rw [readings, readings, htext, htext', hnumber, hnumber', Box.ofJson?_extends laws hv hv' h]

/-- Whether a value is the same detection as another one, but for the order of its fields and of
those of its box and for what else is between them. -/
inductive Respelled : json.Value → json.Value → Prop
  | same (v : json.Value) : Respelled v v
  | object {v v' : json.Value} {fields middle fields' : List (String × json.Value)}
      (hv : json.fields? v = some fields) (hv' : json.fields? v' = some fields')
      (boxes : List.Forall₂ (fun field field' =>
        field'.1 = field.1 ∧ BoxRespelled field.2 field'.2) fields middle)
      (own : Extends fieldNames middle fields') : Respelled v v'
  | array {v v' : json.Value} {items items' : List json.Value} (hv : json.items? v = some items)
      (hv' : json.items? v' = some items') (boxes : List.Forall₂ BoxRespelled items items') :
      Respelled v v'

theorem Respelled.readings_eq (laws : json.Laws) {v v' : json.Value} (h : Respelled v v') :
    (json.record? fieldNames v').map (List.map (Option.map (readings json))) =
      (json.record? fieldNames v).map (List.map (Option.map (readings json))) := by
  cases h with
  | same => rfl
  | @object _ fields middle fields' hv hv' boxes own =>
      have hboxes : middle.map (Prod.map id (readings json)) =
          fields.map (Prod.map id (readings json)) :=
        map_eq_of_forall₂ (fun _ _ h => Prod.ext h.1 (h.2.readings_eq laws)) boxes
      rw [laws.record?_fields _ hv, laws.record?_fields _ hv', own.pick?_eq, ← JsonFormat.pick?_map,
        ← JsonFormat.pick?_map, hboxes]
  | @array _ items items' hv hv' boxes =>
      have hboxes : items'.map (some ∘ readings json) = items.map (some ∘ readings json) :=
        map_eq_of_forall₂ (fun _ _ h => congrArg some (h.readings_eq laws)) boxes
      rw [laws.record?_items _ hv, laws.record?_items _ hv', boxes.length_eq]
      split
      · simp only [Option.map_some, List.map_append, List.map_map]
        exact congrArg some (congrArg (· ++ _) hboxes)
      · rfl

/-- **Order and other fields.** They change nothing of a detection. -/
theorem Respelled.ofJson?_eq (laws : json.Laws) {v v' : json.Value} (h : Respelled v v') :
    ofJson? json v' = ofJson? json v := by
  refine Option.ext fun d => ⟨?_, ?_⟩
  · exact ofJson?_of_readings_eq (h.readings_eq laws).symm
  · exact ofJson?_of_readings_eq (h.readings_eq laws)

/-! ## §2  Missing and repeated fields -/

/-- Whether all fields of a detection and of its box are there, each once. -/
inductive Complete (v : json.Value) : Prop
  | object {fields : List (String × json.Value)} (hv : json.fields? v = some fields)
      (own : HasFields fieldNames v)
      (box : ∀ w, ("bbox", w) ∈ fields → HasFields Box.fieldNames w)
  | array {label confidence box : json.Value} (hv : json.items? v = some [label, confidence, box])
      (h : HasFields Box.fieldNames box)

/-- **Missing and repeated fields.** What is read as a detection has all fields, each once. -/
theorem complete_of_ofJson? (laws : json.Laws) {v : json.Value} {d : Detection Float}
    (h : ofJson? json v = some d) : Complete v := by
  obtain ⟨label, confidence, box, hfound, _, _, hb⟩ := ofJson?_eq_some_iff.1 h
  have hown := laws.hasFields_of_record? hfound
  have hbox := Box.hasFields_of_ofJson? laws hb
  rcases laws.record?_eq_some_map hfound with ⟨fields, hv, hpick⟩ | ⟨hv, _⟩
  · refine .object hv hown fun w hmem => ?_
    obtain ⟨_, _, hvalues⟩ : _ ∧ _ ∧ JsonFormat.valuesAt "bbox" fields = [box] := by
      simpa only [fieldNames, List.forall₂_cons, List.forall₂_nil_left_iff, and_true] using
        JsonFormat.valuesAt_of_pick? hpick
    have hw := JsonFormat.mem_valuesAt hmem
    rw [hvalues] at hw
    exact List.mem_singleton.1 hw ▸ hbox
  · exact .array hv hbox

/-- Lists of detections are read alike if their items are the same detections. -/
theorem mapM_ofJson?_eq (laws : json.Laws) {items items' : List json.Value}
    (h : List.Forall₂ Respelled items items') :
    items'.mapM (ofJson? json) = items.mapM (ofJson? json) := by
  induction h with
  | nil => rfl
  | cons h _ ih => rw [List.mapM_cons, List.mapM_cons, h.ofJson?_eq laws, ih]

theorem complete_of_mapM_ofJson? (laws : json.Laws) {items : List json.Value}
    {detections : List (Detection Float)} (h : items.mapM (ofJson? json) = some detections) :
    ∀ v ∈ items, Complete v := by
  rw [mapM_eq_some_iff_forall₂] at h
  induction h with
  | nil =>
      intro v hv
      cases hv
  | cons hd _ ih => exact List.forall_mem_cons.2 ⟨complete_of_ofJson? laws hd, ih⟩

/-! ## §3  Files -/

variable (json) in
/-- Whether a text is a list of some values. -/
def IsListOf (text : List Char) (items : List json.Value) : Prop :=
  (json.read? text).bind json.items? = some items

theorem readJson?_of_isListOf {text : List Char} {items : List json.Value}
    (h : IsListOf json text items) : readJson? json text = items.mapM (ofJson? json) := by
  show (json.read? text).bind (fun v => (json.items? v).bind fun items =>
    items.mapM (ofJson? json)) = _
  rw [← Option.bind_assoc, show (json.read? text).bind json.items? = some items from h]
  rfl

end Detection

/-- **Detections as JSON.** The text that is written for some detections is loaded as them. Any
other text in which they have their fields in another order, and other fields between them, is
loaded as the same. If one of them or its box lacks a field, or has one more than once, nothing is
loaded. -/
theorem loadDetections_json (formats : DetectionFormats) (laws : formats.json.Laws) {path : String}
    (hkind : Path.extension? path = some "json".toList) :
    (∀ {folder : Folder} {detections : List (Detection Float)},
      (∀ d ∈ detections, d.ReadsBack formats.json) →
      folder.read path = some (String.ofList (Detection.writeJson formats.json detections)) →
        (loadDetections formats Folder.disk path).run.run folder = (.ok detections, folder)) ∧
    (∀ {folder folder' : Folder} {text text' : String} {items items' : List formats.json.Value},
      folder.read path = some text → folder'.read path = some text' →
      Detection.IsListOf formats.json text.toList items →
      Detection.IsListOf formats.json text'.toList items' →
      List.Forall₂ Detection.Respelled items items' →
        ((loadDetections formats Folder.disk path).run.run folder').1 =
          ((loadDetections formats Folder.disk path).run.run folder).1) ∧
    ∀ {folder : Folder} {text : String} {items : List formats.json.Value},
      folder.read path = some text → Detection.IsListOf formats.json text.toList items →
      (∃ v ∈ items, ¬ Detection.Complete v) →
        (loadDetections formats Folder.disk path).run.run folder =
          (.error (.malformedDetections path), folder) := by
  refine ⟨?_, ?_, ?_⟩
  · intro folder detections hnumbers hread
    rw [load_json_run hkind hread, String.toList_ofList,
      Detection.readJson?_writeJson laws hnumbers]
    rfl
  · intro folder folder' text text' items items' hread hread' htext htext' hsame
    rw [load_json_run hkind hread, load_json_run hkind hread',
      Detection.readJson?_of_isListOf htext, Detection.readJson?_of_isListOf htext',
      Detection.mapM_ofJson?_eq laws hsame]
  · rintro folder text items hread htext ⟨v, hmem, hv⟩
    have hnone : items.mapM (Detection.ofJson? formats.json) = none := by
      rw [Option.eq_none_iff_forall_ne_some]
      intro detections hread
      exact hv (Detection.complete_of_mapM_ofJson? laws hread v hmem)
    rw [load_json_run hkind hread, Detection.readJson?_of_isListOf htext, hnone]
    rfl

/-- A sign whose label has a quotation mark, a backslash, a control character and a character of
four bytes. -/
def oddLabel : Detection Float := ⟨"\"\\\x07😀", 0.5, ⟨0.5, 0.25, 0.125, 0.125⟩⟩

/-- The fields of its box from last to first, behind a remark. -/
def oddBoxTurned : List (String × Json) :=
  [("remark", .null), ("height", .ofFloat 0.125), ("width", .ofFloat 0.125),
    ("center_y", .ofFloat 0.25), ("center_x", .ofFloat 0.5)]

/-- All its fields from last to first, behind a remark. -/
def oddLabelTurned : List (String × Json) :=
  [("remark", .null), ("bbox", .ofFields oddBoxTurned), ("confidence", .ofFloat 0.5),
    ("label", .ofText oddLabel.label.toList)]

/-- Its label twice. -/
def oddLabelTwice : List (String × Json) :=
  [("label", .ofText oddLabel.label.toList), ("label", .ofText oddLabel.label.toList),
    ("confidence", .ofFloat 0.5), ("bbox", oddLabel.box.toJson Json.format)]

/-- A folder with one file. -/
def singleFile (text : List Char) : Folder :=
  { files := [(["d.json".toList], String.ofList text)], folders := [] }

theorem Json.wellWritten_ofFields {fields : List (String × Json)}
    (h : ∀ field ∈ fields, field.2.WellWritten) : (ofFields fields).WellWritten := by
  refine .object ?_ ?_
  · intro field hfield
    obtain ⟨⟨name, v⟩, _, rfl⟩ := List.mem_map.1 hfield
    exact isStringText_escape name.toList
  · intro field hfield
    obtain ⟨field, hmem, rfl⟩ := List.mem_map.1 hfield
    exact h field hmem

theorem isListOf_singleFile {v : Json} (h : v.WellWritten) :
    Detection.IsListOf Json.format (String.ofList (Json.array [v]).compact).toList [v] := by
  rw [String.toList_ofList]
  show (Json.read? (Json.array [v]).compact).bind Json.items? = some [v]
  rw [Json.read?_compact (.array (List.forall_mem_singleton.2 h))]
  rfl

theorem readsBack_oddLabel : oddLabel.ReadsBack Json.format :=
  readsBack_of_float? (by decide +kernel) _ (List.mem_singleton_self oddLabel)

theorem wellWritten_oddLabelTurned : (Json.ofFields oddLabelTurned).WellWritten := by
  refine Json.wellWritten_ofFields ?_
  simp only [oddLabelTurned, List.forall_mem_cons, List.not_mem_nil, false_imp_iff, implies_true,
    and_true]
  refine ⟨.null, Json.wellWritten_ofFields ?_, Json.wellWritten_ofFloat _,
    .string (Json.isStringText_escape _)⟩
  simp only [oddBoxTurned, List.forall_mem_cons, List.not_mem_nil, false_imp_iff, implies_true,
    and_true]
  exact ⟨.null, Json.wellWritten_ofFloat _, Json.wellWritten_ofFloat _, Json.wellWritten_ofFloat _,
    Json.wellWritten_ofFloat _⟩

theorem wellWritten_oddLabelTwice : (Json.ofFields oddLabelTwice).WellWritten := by
  obtain ⟨_, hx, hy, hwidth, hheight⟩ := Detection.ReadsBack.iff_all.1 readsBack_oddLabel
  have hbox : Json.WellWritten (oddLabel.box.toJson Json.format) :=
    Json.wellWritten_of_plain (Box.plain_toJson hx hy hwidth hheight)
  refine Json.wellWritten_ofFields ?_
  simp only [oddLabelTwice, List.forall_mem_cons, List.not_mem_nil, false_imp_iff, implies_true,
    and_true]
  exact ⟨.string (Json.isStringText_escape _), .string (Json.isStringText_escape _),
    Json.wellWritten_ofFloat _, hbox⟩

/-- Fields from last to first behind a remark. -/
theorem extends_reverse {names : List String} (h : "remark" ∉ names)
    (fields : List (String × Json)) (v : Json) :
    Extends names fields (("remark", v) :: fields.reverse) :=
  ⟨[("remark", v)], ((List.reverse_perm fields).cons _).trans (List.perm_append_singleton _ _).symm,
    List.forall_mem_singleton.2 h⟩

theorem respelled_oddLabelTurned :
    @Detection.Respelled Json.format (oddLabel.toJson Json.format)
      (Json.ofFields oddLabelTurned) := by
  refine @Detection.Respelled.object Json.format _ _ _
    (Detection.fieldNames.zip
      [.ofText oddLabel.label.toList, .ofFloat 0.5, .ofFields oddBoxTurned]) _
    (Json.fields?_ofFields _) (Json.fields?_ofFields _) ?_ (extends_reverse (by decide) _ .null)
  exact .cons ⟨rfl, .same _⟩ (.cons ⟨rfl, .same _⟩ (.cons ⟨rfl, .box (Json.fields?_ofFields _)
    (Json.fields?_ofFields _) (extends_reverse (by decide) _ .null)⟩ .nil))

theorem not_complete_oddLabelTwice :
    ¬ @Detection.Complete Json.format (Json.ofFields oddLabelTwice) := by
  have hfields : Json.format.fields? (Json.ofFields oddLabelTwice) = some oddLabelTwice :=
    Json.fields?_ofFields _
  intro h
  cases h with
  | object _ own _ =>
      cases own with
      | object hv hown =>
          obtain rfl := Option.some.inj (hfields.symm.trans hv)
          exact absurd (hown "label" List.mem_cons_self) (by decide +kernel)
      | array hv _ => cases hv
  | array hv _ => cases hv

theorem read_singleFile (text : List Char) :
    (singleFile text).read "d.json" = some (String.ofList text) := by
  have hplace : Folder.asksForFolder "d.json" = false ∧
      Folder.resolve "d.json" = ["d.json".toList] := by
    decide +kernel
  rw [Folder.read, hplace.1, hplace.2]
  rfl

/-- The label comes back as it was, also if the fields are turned round, and the file with two
labels is refused. -/
theorem oddLabel_loaded :
    Path.extension? "d.json" = some "json".toList ∧
      (loadDetections .builtIn Folder.disk "d.json").run.run
          (singleFile (Detection.writeJson Json.format [oddLabel])) =
        (.ok [oddLabel], singleFile (Detection.writeJson Json.format [oddLabel])) ∧
      ((loadDetections .builtIn Folder.disk "d.json").run.run
          (singleFile (Json.array [Json.ofFields oddLabelTurned]).compact)).1 = .ok [oddLabel] ∧
      (loadDetections .builtIn Folder.disk "d.json").run.run
          (singleFile (Json.array [Json.ofFields oddLabelTwice]).compact) =
        (.error (.malformedDetections "d.json"),
          singleFile (Json.array [Json.ofFields oddLabelTwice]).compact) := by
  have hkind : Path.extension? "d.json" = some "json".toList := by decide +kernel
  have hnumbers : ∀ d ∈ [oddLabel], d.ReadsBack Json.format :=
    List.forall_mem_singleton.2 readsBack_oddLabel
  have hwritten := isListOf_singleFile
    (Json.wellWritten_of_plain (Detection.plain_toJson readsBack_oddLabel))
  have hturned := isListOf_singleFile wellWritten_oddLabelTurned
  have htwice := isListOf_singleFile wellWritten_oddLabelTwice
  obtain ⟨hback, hsame, hrefused⟩ := loadDetections_json .builtIn Json.laws hkind
  have hloaded := hback hnumbers (read_singleFile _)
  refine ⟨hkind, hloaded, ?_, ?_⟩
  · rw [hsame (read_singleFile _) (read_singleFile _) hwritten hturned
      (.cons respelled_oddLabelTurned .nil)]
    exact congrArg Prod.fst hloaded
  · exact hrefused (read_singleFile _) htwice
      ⟨_, List.mem_singleton_self _, not_complete_oddLabelTwice⟩

end InkAlgebra
