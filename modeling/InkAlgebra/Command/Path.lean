/-!
# Paths

Paths are text, with `/` between their parts. Empty parts and `.` lead nowhere and do not count.
A file name divides at its last point into stem and extension; a point in front divides nothing.
-/

namespace InkAlgebra.Path

def splitAt (mark : Char) : List Char → List (List Char)
  | [] => [[]]
  | c :: rest =>
    match splitAt mark rest with
    | part :: parts => if c = mark then [] :: part :: parts else (c :: part) :: parts
    | [] => []

/-- The parts of a path that count. -/
def parts (path : String) : List (List Char) :=
  (splitAt '/' path.toList).filter fun part => !part.isEmpty && part ≠ ['.']

/-- The last part of a path, unless it leads back up. -/
def fileName? (path : String) : Option (List Char) :=
  (parts path).getLast?.filter (· ≠ ['.', '.'])

def splitName (name : List Char) : List Char × Option (List Char) :=
  let extension := (name.reverse.takeWhile (· ≠ '.')).reverse
  let stem := name.take (name.length - extension.length - 1)
  if stem.isEmpty then (name, none) else (stem, some extension)

def extension? (path : String) : Option (List Char) :=
  (fileName? path).bind fun name => (splitName name).2

def stem? (path : String) : Option (List Char) :=
  (fileName? path).map fun name => (splitName name).1

/-- The path without its last part; empty if there is only one. -/
def parent (path : String) : String :=
  let back := path.toList.reverse.dropWhile (· = '/')
  let rest := back.dropWhile (· ≠ '/')
  let trimmed := rest.dropWhile (· = '/')
  String.ofList (if trimmed.isEmpty then rest.take 1 else trimmed.reverse)

/-- A path beside the given one, with another last part. -/
def sibling (path : String) (name : List Char) : String :=
  let folder := (parent path).toList
  let slash : List Char := if folder.isEmpty || folder.getLast? = some '/' then [] else ['/']
  String.ofList (folder ++ slash ++ name)

end InkAlgebra.Path
