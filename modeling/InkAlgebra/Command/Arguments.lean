import InkAlgebra.Number.Binary64
import InkAlgebra.Number.Literal

/-!
# Arguments

The program has three commands:

* `solve --input FILE [--out FILE] [--config FILE]` solves the equation of a detection file,
* `expr EXPR [--epsilon E] [--config FILE]` solves a typed equation,
* `report` prints the version and the default settings.

An option takes its value from behind `=` or from the next argument, which then must not look like
an option itself. Everything behind `--` is an operand. An option may be given once.
-/

namespace InkAlgebra

inductive Command where
  | solve (input : String) (out config : Option String)
  | expr (text : String) (epsilon : Option Float) (config : Option String)
  | report
deriving Repr

namespace Command

/-- Arguments sorted into options and operands. -/
structure Sorted where
  options : List (String × String)
  operands : List String

/-- Whether an argument looks like an option: a dash with something behind it. -/
def looksLikeOption (argument : String) : Bool :=
  match argument.toList with
  | '-' :: _ :: _ => true
  | _ => false

/-- The name of a long option and the value behind its `=`, if it has one. -/
def longOption? (argument : String) : Option (String × Option String) :=
  match argument.toList with
  | '-' :: '-' :: rest =>
    let name := String.ofList (rest.takeWhile (· ≠ '='))
    match rest.dropWhile (· ≠ '=') with
    | [] => some (name, none)
    | _ :: value => some (name, some (String.ofList value))
  | _ => none

/-- Sorts arguments; nothing if one of them is out of place. -/
def sortArguments? (known : List String) : List String → Option Sorted
  | [] => some ⟨[], []⟩
  | "--" :: rest => some ⟨[], rest⟩
  | argument :: rest =>
    if looksLikeOption argument then do
      let (name, value) ← longOption? argument
      if !known.contains name then none
      match value, rest with
      | some value, rest =>
        let sorted ← sortArguments? known rest
        return { sorted with options := (name, value) :: sorted.options }
      | none, value :: rest =>
        if looksLikeOption value then none
        let sorted ← sortArguments? known rest
        return { sorted with options := (name, value) :: sorted.options }
      | none, [] => none
    else do
      let sorted ← sortArguments? known rest
      return { sorted with operands := argument :: sorted.operands }

def Sorted.value? (s : Sorted) (name : String) : Option (Option String) :=
  match s.options.filter fun option => option.1 = name with
  | [] => some none
  | [(_, value)] => some (some value)
  | _ => none

/-- The value of an option that names a file, which an empty text does not. -/
def Sorted.path? (s : Sorted) (name : String) : Option (Option String) := do
  match ← s.value? name with
  | some "" => none
  | value => return value

def Sorted.number? (s : Sorted) (name : String) : Option (Option Float) := do
  match ← s.value? name with
  | some value => return some (← readNumber? Float value.toList)
  | none => return none

def ofArguments? : List String → Option Command
  | "solve" :: rest => do
    let s ← sortArguments? ["input", "out", "config"] rest
    match s.operands, ← s.path? "input" with
    | [], some input => return solve input (← s.path? "out") (← s.path? "config")
    | _, _ => none
  | "expr" :: rest => do
    let s ← sortArguments? ["epsilon", "config"] rest
    match s.operands with
    | [text] => return expr text (← s.number? "epsilon") (← s.path? "config")
    | _ => none
  | "report" :: rest => do
    let s ← sortArguments? [] rest
    if s.operands.isEmpty then some report else none
  | _ => none

end Command

end InkAlgebra
