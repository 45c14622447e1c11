/-!
# Files

A file is seen only through what a reader finds: nothing, or bytes, which may or may not be text.
-/

namespace Microboard

/-- Why the text of a file could not be had. -/
inductive FileError where
  /-- There is no such file. -/
  | missing
  /-- The bytes are not UTF-8. -/
  | notText
deriving DecidableEq, Repr

def FileError.message : FileError → String
  | .missing => "No such file or directory (os error 2)"
  | .notText => "stream did not contain valid UTF-8"

/-- What a reader finds at some place: bytes, if there is a file. -/
structure File where
  bytes? : Option (Array UInt8)
deriving DecidableEq, Repr

namespace File

def bytes (file : File) : Except FileError (Array UInt8) :=
  match file.bytes? with
  | some bytes => .ok bytes
  | none => .error .missing

def text (file : File) : Except FileError String := do
  match String.fromUTF8? ⟨← file.bytes⟩ with
  | some text => return text
  | none => throw .notText

end File

end Microboard
