import Microboard.Flash
import Microboard.Pins
import Microboard.Registers
import Microboard.Settings

/-!
# The machine

The state of the board between two steps. `Machine.new` builds a board that is switched off with
nothing loaded; `Machine.load` puts an image into flash and resets everything that belongs to the
run of the previous one. The pins, the analog source and the running flag belong to the host and
are kept.
-/

namespace Microboard

/-- The analog input: the samples it will give, and how many have been drawn. -/
structure AnalogInput where
  sample : Nat → Int64
  drawn : Nat := 0

namespace AnalogInput

def constant (value : Int64) : AnalogInput :=
  { sample := fun _ => value }

/-- An input that reads the given values in turn and zero ever after. -/
def ofValues (values : Array Int64) : AnalogInput :=
  { sample := fun k => values[k]?.getD 0 }

/-- Highest reading of the converter. -/
def maximum : Int := 4095

/-- The low byte of a sample that has been cut off at the highest reading. -/
def reading (sample : Int64) : UInt8 :=
  UInt8.ofNat (min sample.toInt maximum % 256).toNat

def next (input : AnalogInput) : UInt8 :=
  reading (input.sample input.drawn)

def advance (input : AnalogInput) : AnalogInput :=
  { input with drawn := input.drawn + 1 }

end AnalogInput

/-- A record that stopped the machine, and the address it stands at. -/
structure Fault where
  cause : RecordError
  pc : UInt32
deriving DecidableEq, Repr

namespace Fault

def message (fault : Fault) : String :=
  fault.cause.messageAt (" at pc 0x" ++ Text.hexadecimal 8 fault.pc.toNat)

def site (fault : Fault) : UInt8 × UInt32 :=
  (fault.cause.opcode, fault.pc)

end Fault

structure Machine where
  settings : Settings := {}
  flash : Flash := .empty
  registers : Registers := {}
  /-- Address of the next record. -/
  pc : UInt32 := origin
  /-- Outcome of the last comparison. -/
  flag : Ordering := .eq
  pins : Pins := {}
  /-- Bytes written to the serial line since the last load. -/
  serial : Array UInt8 := #[]
  /-- Bytes written to the SPI line since the last load. -/
  spi : Array UInt8 := #[]
  panel : Panel := { geometry := settings.screen }
  /-- Cycles of the current delay that are still to pass. -/
  delay : UInt16 := 0
  running : Bool := false
  fault : Option Fault := none
  adc : AnalogInput := .constant settings.adcDefault
  /-- Instructions executed since the last load, modulo 2^64. -/
  counter : UInt64 := 0

namespace Machine

/-- A board that is switched off and has nothing loaded. -/
def new (settings : Settings) : Machine :=
  { settings }

/-- What the counter of instructions shows. -/
def executed (m : Machine) : Nat :=
  m.counter.toNat

/-- Flash offset of the next record, if the program counter points into or past flash. -/
def offset? (m : Machine) : Option Nat :=
  Microboard.offset? m.pc

/-- The state in which `flash` has just been loaded: what belongs to a run is reset, and what
    belongs to the host is kept. -/
def withFlash (m : Machine) (flash : Flash) : Machine :=
  { m with
    flash
    registers := .zero
    pc := origin
    flag := .eq
    serial := #[]
    spi := #[]
    panel := m.panel.home
    delay := 0
    fault := none
    counter := 0 }

/-- Puts an image into flash. Loading starts nothing, and a rejected image changes nothing. -/
def load (m : Machine) (image : Array UInt8) : Except CapacityExceeded Machine :=
  (m.flash.load image).map m.withFlash

def start (m : Machine) : Machine :=
  { m with running := true }

def stop (m : Machine) : Machine :=
  { m with running := false }

end Machine

end Microboard
