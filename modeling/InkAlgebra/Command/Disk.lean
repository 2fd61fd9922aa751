import InkAlgebra.Command.Path

/-!
# Disks

What the commands ask of a file system: reading a text, writing one, and making folders. The
commands are written over this capability, so that they can be run on a real disk and on a folder in
memory.
-/

namespace InkAlgebra

structure Disk (m : Type → Type) where
  read : (path : String) → m (Option String)
  /-- Writes a file; false if that is not possible. -/
  write : (path content : String) → m Bool
  /-- Makes a folder and those above it; false if that is not possible. -/
  createFolders : (path : String) → m Bool

/-- A folder in memory: files by the parts of their paths, and folders made besides those that files
are in. -/
structure Folder where
  files : List (List (List Char) × String)
  folders : List (List (List Char))

namespace Folder

def empty : Folder := ⟨[], []⟩

/-- The place a path leads to: `..` takes back the part before it. -/
def resolve (path : String) : List (List Char) :=
  (Path.parts path).foldl (fun place part =>
    if part = ['.', '.'] && !place.isEmpty then place.dropLast else place ++ [part]) []

def find? (f : Folder) (place : List (List Char)) : Option String :=
  (f.files.find? fun file => file.1 = place).map (·.2)

/-- Whether a place is a folder: the top and what is above it, a place with files below it, or one
that was made. -/
def hasFolder (f : Folder) (place : List (List Char)) : Bool :=
  place.all (· = ['.', '.']) || f.folders.contains place ||
    f.files.any fun file => place.isPrefixOf file.1 && place ≠ file.1

/-- Whether a path asks for a folder: it ends at a slash. -/
def asksForFolder (path : String) : Bool := path.toList.getLast? = some '/'

def read (f : Folder) (path : String) : Option String :=
  if asksForFolder path then none else f.find? (resolve path)

/-- The folder with a file put in; its place must be free or a file, and lie in a folder. -/
def write? (f : Folder) (path content : String) : Option Folder :=
  let place := resolve path
  if asksForFolder path || f.hasFolder place || !f.hasFolder place.dropLast then none
  else
    let others := f.files.filter fun file => file.1 ≠ place
    some { f with files := others ++ [(place, content)] }

/-- The folder with a place and all above it made folders; none of them may be a file. -/
def createFolders? (f : Folder) (path : String) : Option Folder :=
  let place := resolve path
  let above := (List.range (place.length + 1)).map place.take
  if above.any fun part => (f.find? part).isSome then none
  else some { f with folders := f.folders ++ above }

def disk : Disk (StateM Folder) where
  read path := do return (← get).read path
  write path content := do
    match (← get).write? path content with
    | some f => set f; return true
    | none => return false
  createFolders path := do
    match (← get).createFolders? path with
    | some f => set f; return true
    | none => return false

end Folder

end InkAlgebra
