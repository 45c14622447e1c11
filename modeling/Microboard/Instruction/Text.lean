import Microboard.Instruction.Basic
import Microboard.Text.Radix

/-!
# Instructions as listing text

A listing shows the mnemonic and the operands: registers as `R5`, pins as `GPIO7`, literals and jump
targets as two hexadecimal digits, and the cycles of a delay in decimal.
-/

namespace Microboard.Instruction

def registerText (r : UInt8) : String :=
  "R" ++ Text.decimal r.toNat

/-- A literal or a jump target. -/
def byteText (b : UInt8) : String :=
  "0x" ++ Text.hexadecimal 2 b.toNat

def operandTexts : Instruction → List String
  | .loadImmediate register value => [registerText register, byteText value]
  | .storePin register pin | .loadPin register pin =>
    [registerText register, "GPIO" ++ Text.decimal pin.toNat]
  | .jump _ target => [byteText target]
  | .delay cycles => [Text.decimal cycles.toNat]
  | i => i.registers.map registerText

/-- The mnemonic, and after a space the operands with a comma and a space between them. -/
def text (i : Instruction) : String :=
  match i.operandTexts with
  | [] => i.opcode.mnemonic
  | operands => i.opcode.mnemonic ++ " " ++ ", ".intercalate operands

end Microboard.Instruction
