import Microboard.Instruction.Basic
import Microboard.Json.Integer

/-!
# Instructions as JSON

An instruction is an object with the tag of its operation and its operands by name.
-/

namespace Microboard

namespace Instruction

def namedOperands : Instruction → List (String × Nat)
  | .loadImmediate register value => [("reg", register.toNat), ("value", value.toNat)]
  | .storePin register pin | .loadPin register pin =>
    [("reg", register.toNat), ("pin", pin.toNat)]
  | .jump _ target => [("target", target.toNat)]
  | .add destination source | .subtract destination source =>
    [("dst", destination.toNat), ("src", source.toNat)]
  | .compare left right => [("lhs", left.toNat), ("rhs", right.toNat)]
  | .delay cycles => [("cycles", cycles.toNat)]
  | .screenClear => []
  | .drawPixel x y => [("x_reg", x.toNat), ("y_reg", y.toNat)]
  | .serialWrite register | .readAdc register | .spiWrite register => [("reg", register.toNat)]
  | .screenPrint register | .moveX register | .moveY register => [("reg", register.toNat)]

def toJson (i : Instruction) : Json :=
  let operands := i.namedOperands.map fun (name, value) => (name, Json.nat value)
  .record (("op", .text i.opcode.tag) :: operands)

def ofJson? (value : Json) : Option Instruction := do
  let tag ← (← value.field? "op").text?
  let op ← Opcode.all.find? (·.tag == tag)
  let byte (name : String) : Option UInt8 := do (← value.field? name).uint8?
  match op with
  | .loadImmediate => return .loadImmediate (← byte "reg") (← byte "value")
  | .storePin => return .storePin (← byte "reg") (← byte "pin")
  | .loadPin => return .loadPin (← byte "reg") (← byte "pin")
  | .jump condition => return .jump condition (← byte "target")
  | .serialWrite => return .serialWrite (← byte "reg")
  | .add => return .add (← byte "dst") (← byte "src")
  | .subtract => return .subtract (← byte "dst") (← byte "src")
  | .compare => return .compare (← byte "lhs") (← byte "rhs")
  | .delay => return .delay (← (← value.field? "cycles").uint16?)
  | .readAdc => return .readAdc (← byte "reg")
  | .spiWrite => return .spiWrite (← byte "reg")
  | .screenPrint => return .screenPrint (← byte "reg")
  | .screenClear => return .screenClear
  | .drawPixel => return .drawPixel (← byte "x_reg") (← byte "y_reg")
  | .moveX => return .moveX (← byte "reg")
  | .moveY => return .moveY (← byte "reg")

end Instruction

end Microboard
