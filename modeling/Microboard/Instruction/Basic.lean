import Microboard.Opcode

/-!
# Instructions

An instruction is an operation together with its typed operands. Registers, pins, literals and jump
targets are single bytes; only a delay has a wider operand. Nothing here limits a register operand
to the registers that exist: an instruction that names only those is `Addressable`, and decoding
yields no other.
-/

namespace Microboard

def registerCount : Nat := 16

/-- An operation with its operands. A jump names its target as an offset from the start of flash. -/
inductive Instruction where
  | loadImmediate (register value : UInt8)
  | storePin (register pin : UInt8)
  | loadPin (register pin : UInt8)
  | jump (condition : Condition) (target : UInt8)
  | serialWrite (register : UInt8)
  | add (destination source : UInt8)
  | subtract (destination source : UInt8)
  | compare (left right : UInt8)
  | delay (cycles : UInt16)
  | readAdc (register : UInt8)
  | spiWrite (register : UInt8)
  | screenPrint (register : UInt8)
  | screenClear
  | drawPixel (x y : UInt8)
  | moveX (register : UInt8)
  | moveY (register : UInt8)
deriving DecidableEq, Repr

namespace Instruction

def opcode : Instruction → Opcode
  | .loadImmediate .. => .loadImmediate
  | .storePin .. => .storePin
  | .loadPin .. => .loadPin
  | .jump condition _ => .jump condition
  | .serialWrite _ => .serialWrite
  | .add .. => .add
  | .subtract .. => .subtract
  | .compare .. => .compare
  | .delay _ => .delay
  | .readAdc _ => .readAdc
  | .spiWrite _ => .spiWrite
  | .screenPrint _ => .screenPrint
  | .screenClear => .screenClear
  | .drawPixel .. => .drawPixel
  | .moveX _ => .moveX
  | .moveY _ => .moveY

/-- Register operands, in operand order. -/
def registers : Instruction → List UInt8
  | .loadImmediate register _ | .storePin register _ | .loadPin register _ => [register]
  | .serialWrite register | .readAdc register | .spiWrite register => [register]
  | .screenPrint register | .moveX register | .moveY register => [register]
  | .add destination source | .subtract destination source => [destination, source]
  | .compare left right => [left, right]
  | .drawPixel x y => [x, y]
  | .jump .. | .delay _ | .screenClear => []

/-- Every register operand names a register that exists. -/
def Addressable (i : Instruction) : Prop :=
  ∀ r ∈ i.registers, r.toNat < registerCount

instance (i : Instruction) : Decidable i.Addressable :=
  inferInstanceAs (Decidable (∀ r ∈ i.registers, r.toNat < registerCount))

/-- Target of a jump, as an offset from the start of flash. -/
def target? : Instruction → Option UInt8
  | .jump _ target => some target
  | _ => none

/-- Where the instruction sends control when the last comparison came out as `flag`; `none` when
    control goes on with the next record. -/
def destination? (flag : Ordering) : Instruction → Option UInt8
  | .jump condition target => if condition.holds flag then some target else none
  | _ => none

end Instruction

end Microboard
