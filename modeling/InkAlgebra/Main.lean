import InkAlgebra.Command.Run

/-!
# The program

The commands on a real disk: output goes to standard output, the message of a failure to standard
error. The exit code is 0 for a command carried out, 1 for one that failed, 2 for arguments that ask
for nothing and 101 for a run that broke off.
-/

open InkAlgebra

/-- The file system of the machine. -/
def realDisk : Disk IO where
  read path := do
    try return some (← IO.FS.readFile path)
    catch _ => return none
  write path content := do
    try IO.FS.writeFile path content; return true
    catch _ => return false
  createFolders path := do
    try IO.FS.createDirAll path; return true
    catch _ => return false

def main (arguments : List String) : IO UInt32 := do
  match ← runProgram .builtIn realDisk (← IO.getEnv "GIT_COMMIT") arguments with
  | .done output =>
    IO.print output
    return 0
  | .failed output cause =>
    IO.print output
    IO.eprintln ("Error: " ++ cause.message)
    return 1
  | .rejected =>
    IO.eprintln ("commands: solve --input FILE [--out FILE] [--config FILE], " ++
      "expr EXPR [--epsilon E] [--config FILE], report")
    return 2
  | .brokenOff =>
    IO.eprintln "arithmetic with overflow"
    return 101
