import InkAlgebra.Command.Disk
import InkAlgebra.Command.Failure
import InkAlgebra.Csv.Detections
import InkAlgebra.Csv.Reader
import InkAlgebra.Json.BuiltIn
import InkAlgebra.Json.Detections
import InkAlgebra.Settings

/-!
# Input files

Settings and detections, as they come from a disk. The extension of a detection file says whether it
is a table or JSON. Detections come from other programs, so it is left open which reader of tables
and which library for JSON take them in.
-/

namespace InkAlgebra

variable {m : Type → Type} [Monad m]

/-- The settings in a file, if one is given; those of the solver have to be acceptable. -/
def loadSettings (disk : Disk m) (path : Option String) : ExceptT Failure m RunSettings := do
  match path with
  | none => return {}
  | some path =>
    let some text ← disk.read path | throw (.unreadable path)
    let some settings := (Json.read? text.toList).bind RunSettings.ofJson?
      | throw (.malformedSettings path)
    match settings.solver.validate with
    | .ok () => return settings
    | .error cause => throw (.rejectedSolver path cause)

/-- The libraries that detection files are read with. -/
structure DetectionFormats where
  table : TableReader
  json : JsonFormat

def DetectionFormats.builtIn : DetectionFormats := ⟨Csv.reader, Json.format⟩

/-- The detections in a table; a file that cannot be read has none of its columns. -/
def loadTable (reader : TableReader) (disk : Disk m) (path : String) :
    ExceptT Failure m (List (Detection Float)) := do
  let some text ← disk.read path | throw (.malformedTable path)
  match reader.readDetections text.toList with
  | .ok detections => return detections
  | .error .malformed => throw (.malformedTable path)
  | .error (.missing column row) => throw (.missingEntry column row)

def loadJson (json : JsonFormat) (disk : Disk m) (path : String) :
    ExceptT Failure m (List (Detection Float)) := do
  let some text ← disk.read path | throw (.unreadable path)
  let some detections := Detection.readJson? json text.toList | throw (.malformedDetections path)
  return detections

def loadDetections (formats : DetectionFormats) (disk : Disk m) (path : String) :
    ExceptT Failure m (List (Detection Float)) :=
  match (Path.extension? path).map String.ofList with
  | some "csv" => loadTable formats.table disk path
  | some "json" => loadJson formats.json disk path
  | _ => throw (.unknownKind (Path.extension? path) path)

end InkAlgebra
