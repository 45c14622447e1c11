import Microboard.Json.Tree
import Microboard.Machine.Basic

/-!
# Views

A view is a snapshot of a machine for displays, as a JSON object. Output is shown as text with
one character per byte.
-/

namespace Microboard

/-- Bytes as text: each byte is the character with its number. -/
def outputText (bytes : Array UInt8) : String :=
  String.ofList (bytes.toList.map fun b => Char.ofNat b.toNat)

def Pin.toJson (pin : Pin) : Json :=
  .record [("level", .nat pin.level.toNat), ("mode", .text pin.mode.name)]

namespace Machine

def cursorJson (m : Machine) : Json :=
  .array [.nat m.panel.x.toNat, .nat m.panel.y.toNat]

def view (m : Machine) : Json :=
  .record
    [("pc", .nat m.pc.toNat),
      ("registers", .bytes m.registers.toList),
      ("compare_flag", .int (flagValue m.flag)),
      ("delay_counter", .nat m.delay.toNat),
      ("running", .bool m.running),
      ("cursor", m.cursorJson),
      ("gpio", .array (m.pins.toList.map Pin.toJson)),
      ("serial", .text (outputText m.serial)),
      ("spi", .text (outputText m.spi)),
      ("instructions_executed", .nat m.executed),
      ("fault", .orNull (m.fault.map fun fault => .text fault.message))]

def outputStatus (m : Machine) : String :=
  "Serial: " ++ outputText m.serial ++ "\nSPI: " ++ outputText m.spi ++ "\n"

end Machine

end Microboard
