import Microboard.File

/-!
# A disk

A disk holds the files of a working directory by their paths. Two spellings of a path that differ
only in steps to the current directory name the same file.
-/

namespace Microboard.Console

/-- What stands between the slashes of a path. -/
def slashed : List Char → List (List Char)
  | [] => [[]]
  | c :: rest =>
    if c = '/' then [] :: slashed rest
    else
      match slashed rest with
      | [] => [[c]]
      | step :: steps => (c :: step) :: steps

/-- A path by its steps; that of an absolute path begins with an empty step. -/
def pathSteps (path : String) : List String :=
  let steps := (slashed path.toList).map String.ofList
  let inside := steps.filter fun s => s ≠ "" ∧ s ≠ "."
  if steps.head? = some "" then "" :: inside else inside

structure Disk where
  files : List (List String × Array UInt8) := []
deriving DecidableEq, Repr

namespace Disk

def ofFiles (files : List (String × Array UInt8)) : Disk :=
  ⟨files.map fun (path, bytes) => (pathSteps path, bytes)⟩

def file (disk : Disk) (path : String) : File :=
  ⟨(disk.files.find? (·.1 = pathSteps path)).map (·.2)⟩

/-- Whether there is a directory with the given steps. -/
def hasDirectory (disk : Disk) (steps : List String) : Bool :=
  steps.isEmpty || disk.files.any fun f => steps.isPrefixOf f.1 && f.1 ≠ steps

/-- The disk after writing a file. Its directory must exist. -/
def write (disk : Disk) (path : String) (bytes : Array UInt8) : Except FileError Disk :=
  let steps := pathSteps path
  if steps ≠ [] ∧ disk.hasDirectory steps.dropLast then
    .ok ⟨(steps, bytes) :: disk.files.filter (·.1 ≠ steps)⟩
  else .error .missing

end Disk

end Microboard.Console
