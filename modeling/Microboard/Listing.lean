import Microboard.Instruction.Record
import Microboard.Instruction.Text

/-!
# Listings

A listing is what a walk over a firmware image finds, record by record. Each length byte, and not
what its opcode consumes, tells where the next record starts. The walk ends at or past the end of
the image, or at the first record that is no instruction.
-/

namespace Microboard

/-- The instructions of an image with their offsets, and the record that ended the walk early. -/
structure Listing where
  entries : List (Nat × Instruction)
  stop : Option (Nat × RecordError)
deriving DecidableEq, Repr

namespace Listing

/-- Walks what is left of an image at `offset`. A record that claims more operands than the image
    has left is read with those it has; one that has not even a length byte is truncated. -/
def walk (offset : Nat) (image : List UInt8) (before : Array (Nat × Instruction)) : Listing :=
  match image with
  | [] => ⟨before.toList, none⟩
  | [opcode] => ⟨before.toList, some (offset, .truncated opcode 1 0)⟩
  | opcode :: length :: rest =>
    match Instruction.decode opcode (rest.take length.toNat) with
    | .error e => ⟨before.toList, some (offset, e)⟩
    | .ok i =>
      walk (offset + Opcode.headerLength + length.toNat) (rest.drop length.toNat)
        (before.push (offset, i))
termination_by image.length
decreasing_by simp; omega

def ofImage (image : List UInt8) : Listing :=
  walk 0 image #[]

/-- One line of a listing: the offset, and after it what stands there. -/
def line (offset : Nat) (content : String) : String :=
  "0x" ++ Text.hexadecimal 4 offset ++ ": " ++ content ++ "\n"

/-- A line for each instruction, and one in angle brackets for the record that ended the walk. -/
def text (l : Listing) : String :=
  let instructions := l.entries.map fun (offset, i) => line offset i.text
  let stop := l.stop.toList.map fun (offset, e) => line offset ("<" ++ e.message ++ ">")
  String.join (instructions ++ stop)

end Listing

end Microboard
