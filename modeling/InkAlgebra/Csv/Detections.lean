import InkAlgebra.Csv.Table
import InkAlgebra.Layout.Node

/-!
# Tables of detections

Six columns of a table make up its detections. The label is taken as text and the other five as
numbers, and in each of them every cell has to hold something.
-/

namespace InkAlgebra

/-- Why a table holds no detections. -/
inductive TableError where
  /-- The reader does not find the six columns. -/
  | malformed
  /-- A cell holds nothing, or no number where one is needed. -/
  | missing (column : String) (row : Nat)
deriving DecidableEq, Repr

namespace TableReader

/-- How many rows decide about types. -/
def sampleSize : Nat := 100

def columnNames : List String :=
  ["label", "confidence", "center_x", "center_y", "width", "height"]

/-- The entries of a column, of which none may be missing; the first one that is, is named. -/
def entries {β : Type} (name : String) (take? : Csv.Value → Option β)
    (values : List (Option Csv.Value)) : Except TableError (List β) :=
  values.zipIdx.mapM fun (value, row) =>
    match value.bind take? with
    | some entry => .ok entry
    | none => .error (.missing name row)

variable (reader : TableReader)

/-- The detections of a table with the given columns. -/
def ofColumns (columns : List (List (Option Csv.Value))) :
    Except TableError (List (Detection Float)) := do
  match columns with
  | [label, confidence, x, y, width, height] =>
    let label ← entries "label" (some ∘ reader.asText) label
    let confidence ← entries "confidence" reader.asNumber? confidence
    let x ← entries "center_x" reader.asNumber? x
    let y ← entries "center_y" reader.asNumber? y
    let width ← entries "width" reader.asNumber? width
    let height ← entries "height" reader.asNumber? height
    let box := List.zipWith (fun (x, y) (w, h) => (⟨x, y, w, h⟩ : Box Float))
      (x.zip y) (width.zip height)
    return List.zipWith (fun (label, confidence) box => ⟨String.ofList label, confidence, box⟩)
      (label.zip confidence) box
  | _ => .error .malformed

def readDetections (text : List Char) : Except TableError (List (Detection Float)) :=
  match reader.select? sampleSize columnNames text with
  | some columns => reader.ofColumns columns
  | none => .error .malformed

end TableReader

end InkAlgebra
