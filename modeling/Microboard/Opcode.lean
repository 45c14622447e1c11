/-!
# Opcodes

The closed set of operations of the board. Each has the byte that stands for it in a firmware
image, the mnemonic that a listing shows, the two names that tools use for it, and the number of
operand bytes that it consumes.
-/

namespace Microboard

/-- When a jump is taken, read off the outcome of the last comparison. -/
inductive Condition where
  | always
  | equal
  | notEqual
  | greater
  | less
deriving DecidableEq, Repr

/-- Whether a jump under the condition is taken when the last comparison came out as `flag`. -/
def Condition.holds (flag : Ordering) : Condition → Bool
  | .always => true
  | .equal => flag.isEq
  | .notEqual => flag.isNe
  | .greater => flag.isGT
  | .less => flag.isLT

inductive Opcode where
  | loadImmediate
  | storePin
  | loadPin
  | jump (condition : Condition)
  | serialWrite
  | add
  | subtract
  | compare
  | delay
  | readAdc
  | spiWrite
  | screenPrint
  | screenClear
  | drawPixel
  | moveX
  | moveY
deriving DecidableEq, Repr

namespace Opcode

/-- Every operation, by ascending byte. -/
def all : List Opcode :=
  [.loadImmediate, .storePin, .loadPin, .jump .always, .serialWrite, .add, .subtract, .compare,
    .jump .equal, .jump .notEqual, .delay, .readAdc, .spiWrite, .screenPrint, .screenClear,
    .drawPixel, .moveX, .moveY, .jump .greater, .jump .less]

def byte : Opcode → UInt8
  | .loadImmediate => 0x01
  | .storePin => 0x02
  | .loadPin => 0x03
  | .jump .always => 0x04
  | .serialWrite => 0x05
  | .add => 0x11
  | .subtract => 0x12
  | .compare => 0x13
  | .jump .equal => 0x14
  | .jump .notEqual => 0x15
  | .delay => 0x16
  | .readAdc => 0x17
  | .spiWrite => 0x18
  | .screenPrint => 0x19
  | .screenClear => 0x1A
  | .drawPixel => 0x1B
  | .moveX => 0x1C
  | .moveY => 0x1D
  | .jump .greater => 0x1E
  | .jump .less => 0x1F

def ofByte? (b : UInt8) : Option Opcode :=
  all.find? (·.byte == b)

def mnemonic : Opcode → String
  | .loadImmediate => "LDI"
  | .storePin => "STG"
  | .loadPin => "LDG"
  | .jump .always => "JMP"
  | .serialWrite => "SER"
  | .add => "ADD"
  | .subtract => "SUB"
  | .compare => "CMP"
  | .jump .equal => "JEQ"
  | .jump .notEqual => "JNE"
  | .delay => "DLY"
  | .readAdc => "ADC"
  | .spiWrite => "SPI"
  | .screenPrint => "SCR"
  | .screenClear => "CLS"
  | .drawPixel => "PIX"
  | .moveX => "MOVX"
  | .moveY => "MOVY"
  | .jump .greater => "JG"
  | .jump .less => "JL"

def title : Opcode → String
  | .loadImmediate => "LoadImm"
  | .storePin => "StoreGpio"
  | .loadPin => "LoadGpio"
  | .jump .always => "Jump"
  | .serialWrite => "SerialWrite"
  | .add => "Add"
  | .subtract => "Sub"
  | .compare => "Compare"
  | .jump .equal => "JumpEq"
  | .jump .notEqual => "JumpNeq"
  | .delay => "Delay"
  | .readAdc => "ReadAdc"
  | .spiWrite => "SpiWrite"
  | .screenPrint => "ScreenPrint"
  | .screenClear => "ScreenClear"
  | .drawPixel => "DrawPixel"
  | .moveX => "MoveX"
  | .moveY => "MoveY"
  | .jump .greater => "JumpGt"
  | .jump .less => "JumpLt"

def tag : Opcode → String
  | .loadImmediate => "load_imm"
  | .storePin => "store_gpio"
  | .loadPin => "load_gpio"
  | .jump .always => "jump"
  | .serialWrite => "serial_write"
  | .add => "add"
  | .subtract => "sub"
  | .compare => "compare"
  | .jump .equal => "jump_eq"
  | .jump .notEqual => "jump_neq"
  | .delay => "delay"
  | .readAdc => "read_adc"
  | .spiWrite => "spi_write"
  | .screenPrint => "screen_print"
  | .screenClear => "screen_clear"
  | .drawPixel => "draw_pixel"
  | .moveX => "move_x"
  | .moveY => "move_y"
  | .jump .greater => "jump_gt"
  | .jump .less => "jump_lt"

/-- Operand bytes that the operation consumes; also the length byte of its canonical record. -/
def operandSize : Opcode → Nat
  | .screenClear => 0
  | .jump _ | .serialWrite | .readAdc | .spiWrite | .screenPrint | .moveX | .moveY => 1
  | .loadImmediate | .storePin | .loadPin | .add | .subtract | .compare | .delay | .drawPixel => 2

/-- Bytes in front of the operands of a record: the opcode and the length byte. -/
def headerLength : Nat := 2

/-- Size of the canonical record, header included. -/
def recordLength (op : Opcode) : Nat :=
  headerLength + op.operandSize

theorem ofByte?_byte (op : Opcode) : ofByte? op.byte = some op := by
  cases op with
  | jump condition => cases condition <;> rfl
  | _ => rfl

theorem byte_of_ofByte? {b : UInt8} {op : Opcode} (h : ofByte? b = some op) : op.byte = b := by
  simpa using List.find?_some h

end Opcode

end Microboard
