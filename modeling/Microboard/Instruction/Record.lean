import Microboard.Instruction.Basic
import Microboard.Text.Radix

/-!
# Records

In a firmware image an instruction is a record: the opcode, a length byte, and that many operand
bytes. `Instruction.encode` writes the canonical record, whose length byte is exactly what the
opcode consumes. `Instruction.decode` reads an opcode and its operand bytes back. It asks for no
more operands than the opcode consumes and ignores the others, so a record may carry surplus bytes.
-/

namespace Microboard

/-- Why a record is no instruction. -/
inductive RecordError where
  | unknownOpcode (opcode : UInt8)
  | truncated (opcode : UInt8) (needed available : Nat)
  | invalidRegister (opcode register : UInt8)
deriving DecidableEq, Repr

namespace RecordError

def opcode : RecordError → UInt8
  | .unknownOpcode opcode | .truncated opcode _ _ | .invalidRegister opcode _ => opcode

/-- The wording of an error whose record is located by `place`, a text such as ` at pc 0x40000000`
    that follows the opcode. -/
def messageAt (place : String) : RecordError → String
  | .unknownOpcode opcode =>
    "unknown opcode 0x" ++ Text.hexadecimal 2 opcode.toNat ++ place
  | .truncated opcode needed available =>
    "opcode 0x" ++ Text.hexadecimal 2 opcode.toNat ++ place ++ " needs " ++ Text.decimal needed
      ++ " operand bytes, found " ++ Text.decimal available
  | .invalidRegister opcode register =>
    "opcode 0x" ++ Text.hexadecimal 2 opcode.toNat ++ place ++ " names register R"
      ++ Text.decimal register.toNat

def message (e : RecordError) : String :=
  e.messageAt ""

end RecordError

namespace Instruction

/-! ### Writing -/

/-- The operand bytes in canonical order. A delay is written with its low byte first. -/
def operands : Instruction → List UInt8
  | .loadImmediate register value => [register, value]
  | .storePin register pin | .loadPin register pin => [register, pin]
  | .jump _ target => [target]
  | .serialWrite register | .readAdc register | .spiWrite register => [register]
  | .screenPrint register | .moveX register | .moveY register => [register]
  | .add destination source | .subtract destination source => [destination, source]
  | .compare left right => [left, right]
  | .delay cycles => [UInt8.ofNat (cycles.toNat % 256), UInt8.ofNat (cycles.toNat / 256)]
  | .screenClear => []
  | .drawPixel x y => [x, y]

theorem length_operands (i : Instruction) : i.operands.length = i.opcode.operandSize := by
  cases i <;> rfl

/-- The canonical record. -/
def encode (i : Instruction) : List UInt8 :=
  i.opcode.byte :: UInt8.ofNat i.opcode.operandSize :: i.operands

theorem length_encode (i : Instruction) : i.encode.length = i.opcode.recordLength := by
  simp [encode, length_operands, Opcode.recordLength, Opcode.headerLength]
  omega

/-! ### Reading -/

def register (opcode operand : UInt8) : Except RecordError UInt8 :=
  if operand.toNat < registerCount then .ok operand else .error (.invalidRegister opcode operand)

/-- Reads a record from its opcode byte and its operand bytes. An unknown opcode is reported before
    missing operands, and these before a register that does not exist; of two such registers the
    first one is reported. -/
def decode (opcode : UInt8) (operands : List UInt8) : Except RecordError Instruction :=
  match Opcode.ofByte? opcode with
  | none => .error (.unknownOpcode opcode)
  | some op =>
    match op, operands with
    | .loadImmediate, r :: value :: _ => return .loadImmediate (← register opcode r) value
    | .storePin, r :: pin :: _ => return .storePin (← register opcode r) pin
    | .loadPin, r :: pin :: _ => return .loadPin (← register opcode r) pin
    | .jump condition, target :: _ => return .jump condition target
    | .serialWrite, r :: _ => return .serialWrite (← register opcode r)
    | .add, r :: s :: _ => return .add (← register opcode r) (← register opcode s)
    | .subtract, r :: s :: _ => return .subtract (← register opcode r) (← register opcode s)
    | .compare, r :: s :: _ => return .compare (← register opcode r) (← register opcode s)
    | .delay, low :: high :: _ => return .delay (UInt16.ofNat (low.toNat + 256 * high.toNat))
    | .readAdc, r :: _ => return .readAdc (← register opcode r)
    | .spiWrite, r :: _ => return .spiWrite (← register opcode r)
    | .screenPrint, r :: _ => return .screenPrint (← register opcode r)
    | .screenClear, _ => return .screenClear
    | .drawPixel, r :: s :: _ => return .drawPixel (← register opcode r) (← register opcode s)
    | .moveX, r :: _ => return .moveX (← register opcode r)
    | .moveY, r :: _ => return .moveY (← register opcode r)
    | op, operands => .error (.truncated opcode op.operandSize operands.length)

end Instruction

end Microboard
