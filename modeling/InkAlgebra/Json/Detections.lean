import InkAlgebra.Json.Format
import InkAlgebra.Layout.Node

/-!
# Detections as JSON

A detection is a record of its label, its confidence and its box, and a box one of its centre and
its size. Every field has to be there. A file is a list of detections.
-/

namespace InkAlgebra

variable (json : JsonFormat)

namespace Box

def fieldNames : List String := ["center_x", "center_y", "width", "height"]

def toJson (b : Box Float) : json.Value :=
  json.ofFields (fieldNames.zip
    [json.ofNumber b.centerX, json.ofNumber b.centerY, json.ofNumber b.width,
      json.ofNumber b.height])

def ofJson? (v : json.Value) : Option (Box Float) := do
  match ← json.record? fieldNames v with
  | [some x, some y, some width, some height] =>
    return ⟨← json.number? x, ← json.number? y, ← json.number? width, ← json.number? height⟩
  | _ => none

end Box

namespace Detection

def fieldNames : List String := ["label", "confidence", "bbox"]

def toJson (d : Detection Float) : json.Value :=
  json.ofFields (fieldNames.zip
    [json.ofText d.label.toList, json.ofNumber d.confidence, d.box.toJson json])

def ofJson? (v : json.Value) : Option (Detection Float) := do
  match ← json.record? fieldNames v with
  | [some label, some confidence, some box] =>
    return ⟨String.ofList (← json.text? label), ← json.number? confidence,
      ← Box.ofJson? json box⟩
  | _ => none

def readJson? (text : List Char) : Option (List (Detection Float)) := do
  (← json.items? (← json.read? text)).mapM (ofJson? json)

def writeJson (detections : List (Detection Float)) : List Char :=
  json.write (json.ofItems (detections.map (toJson json)))

end Detection

end InkAlgebra
