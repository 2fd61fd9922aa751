import InkAlgebra.Command.Arguments
import InkAlgebra.Command.Input
import InkAlgebra.Record

/-!
# Running a command

A command prints one JSON record. With an output file the record is stored as well, and beside it a
sidecar that says what it was computed from. The record is printed before it is stored, so it is
there even if storing fails.
-/

namespace InkAlgebra

def version : String := "0.1.0"

inductive Outcome where
  | done (output : String)
  /-- The command failed after printing some output. -/
  | failed (output : String) (cause : Failure)
  | rejected
  /-- The run broke off before it printed anything. -/
  | brokenOff

namespace Outcome

/-- The outcome of a step that comes after some output. -/
def ofStep (output : String) : Except Failure Unit → Outcome
  | .ok () => done output
  | .error cause => failed output cause

end Outcome

namespace Json

def text (v : Json) : String := String.ofList (v.pretty 0)

def ofString (s : String) : Json := ofText s.toList

end Json

namespace Command

variable {m : Type → Type} [Monad m]

/-- The solution of a page with the reference glyphs and the library's typesetter. -/
def solveDetections (settings : RunSettings) (detections : List (Detection Float)) :
    Option (Solution Float) :=
  solvePage plainText ⟨settings.geometry, .reference⟩ settings.solver typeset detections

/-- What a stored record was computed from and with. -/
def sidecar (revision : String) (settings : RunSettings) (input out : String) : Json :=
  Json.sorted (.object
    [("code_rev".toList, .ofString revision),
      ("slqe_version".toList, .ofString version),
      ("params".toList, settings.toJson),
      ("inputs".toList, .array [.ofString input]),
      ("outputs".toList, .array [.ofString out])])

/-- The path of a sidecar: the output's, with another extension. -/
def sidecarPath (out : String) : String :=
  Path.sibling out ((Path.stem? out).getD "result".toList ++ ".provenance.json".toList)

def writeOrFail (disk : Disk m) (path : String) (content : Json) : ExceptT Failure m Unit := do
  unless ← disk.write path content.text do throw (.unwritable path)

/-- Stores a record and its sidecar, making the folder they go to. -/
def store (disk : Disk m) (revision : String) (settings : RunSettings) (input out : String)
    (record : Json) : ExceptT Failure m Unit := do
  let folder := Path.parent out
  unless folder.isEmpty do
    unless ← disk.createFolders folder do throw (.folderNotMade folder)
  writeOrFail disk out record
  writeOrFail disk (sidecarPath out) (sidecar revision settings input out)

/-- The settings for a typed equation: an `epsilon` of its own wins over that of the file. -/
def settingsFor (disk : Disk m) (epsilon : Option Float) (config : Option String) :
    ExceptT Failure m (SolverSettings Float) := do
  let settings ← loadSettings disk config
  match epsilon with
  | none => return settings.solver
  | some e =>
    if 0 < e ∧ e < 1 then return { settings.solver with epsilon := e }
    else throw (.epsilonOutOfRange e)

def reportJson (revision : String) : Json :=
  Json.sorted (.object
    [("code_rev".toList, .ofString revision),
      ("slqe_version".toList, .ofString version),
      ("defaults".toList, ({} : RunSettings).toJson)])

def run (formats : DetectionFormats) (disk : Disk m) (revision : String) : Command → m Outcome
  | solve input out config => do
    let loaded ← ExceptT.run do
      let settings ← loadSettings disk config
      return (settings, ← loadDetections formats disk input)
    match loaded with
    | .error cause => return .failed "" cause
    | .ok (settings, detections) =>
      let some solution := solveDetections settings detections | return .brokenOff
      let record := solution.toJson
      let output := record.text ++ "\n"
      match out with
      | none => return .done output
      | some out => return .ofStep output (← (store disk revision settings input out record).run)
  | expr text epsilon config => do
    match ← (settingsFor disk epsilon config).run with
    | .error cause => return .failed "" cause
    | .ok solver =>
      let some solution := solveExpression plainText solver typeset text.toList
        | return .brokenOff
      return .done (solution.toJson.text ++ "\n")
  | report => return .done ((reportJson revision).text ++ "\n")

end Command

/-- The revision to report, given the one that the environment names. -/
def reportedRevision (named : Option String) : String :=
  match named with
  | none | some "" => "unknown"
  | some revision => revision

def runProgram {m : Type → Type} [Monad m] (formats : DetectionFormats) (disk : Disk m)
    (named : Option String) (arguments : List String) : m Outcome :=
  match Command.ofArguments? arguments with
  | some command => command.run formats disk (reportedRevision named)
  | none => return .rejected

end InkAlgebra
