import InkAlgebra.Error
import InkAlgebra.Number.Notation

/-!
# Failures of a command

Why a command could not be carried out: each failure names the file or value at fault.
-/

namespace InkAlgebra

inductive Failure where
  | unreadable (path : String)
  | malformedSettings (path : String)
  | rejectedSolver (path : String) (cause : EvaluationError Float)
  | unknownKind (extension : Option (List Char)) (path : String)
  | malformedDetections (path : String)
  | malformedTable (path : String)
  | missingEntry (column : String) (row : Nat)
  | epsilonOutOfRange (epsilon : Float)
  | folderNotMade (path : String)
  | unwritable (path : String)

namespace Failure

/-- A character in a quoted text of a message. -/
def quotedChar (c : Char) : List Char :=
  match c with
  | '"' => ['\\', '"']
  | '\\' => ['\\', '\\']
  | '\n' => ['\\', 'n']
  | '\r' => ['\\', 'r']
  | '\t' => ['\\', 't']
  | c =>
    if c.toNat = 0 then ['\\', '0']
    else if c.toNat < 32 || c.toNat = 127 then
      '\\' :: 'u' :: '\x7b' :: Nat.toDigits 16 c.toNat ++ ['\x7d']
    else [c]

def extensionText : Option (List Char) → String
  | some e => "Some(\"" ++ String.ofList (e.flatMap quotedChar) ++ "\")"
  | none => "None"

def message : Failure → String
  | unreadable path => "reading " ++ path
  | malformedSettings path => "parsing " ++ path
  | rejectedSolver path _ => "invalid solver section in " ++ path
  | unknownKind e path =>
    "unsupported detection file extension: " ++ extensionText e ++ " (" ++ path ++ ")"
  | malformedDetections path => "parsing detections in " ++ path
  | malformedTable path => "reading detection columns from " ++ path
  | missingEntry column row => "null " ++ column ++ " in row " ++ toString row
  | epsilonOutOfRange e => "epsilon must lie in (0, 1), got " ++ String.ofList (plainText e)
  | folderNotMade path => "creating " ++ path
  | unwritable path => "writing " ++ path

end Failure

end InkAlgebra
