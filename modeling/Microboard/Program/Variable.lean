import Microboard.Program.Basic

/-!
# Variables and literals

The language knows three variables by name. All its values are bytes, so of a literal only the low
byte counts.
-/

namespace Microboard

inductive Variable where
  | x
  | y
  | dx
deriving DecidableEq, Repr

namespace Variable

def name : Variable → String
  | .x => "x"
  | .y => "y"
  | .dx => "dx"

def ofName? (s : String) : Option Variable :=
  [Variable.x, .y, .dx].find? (·.name == s)

end Variable

def lowByte (value : Int64) : UInt8 :=
  UInt8.ofNat (value.toInt % 256).toNat

def lowWord (value : Int64) : UInt16 :=
  UInt16.ofNat (value.toInt % 65536).toNat

end Microboard
