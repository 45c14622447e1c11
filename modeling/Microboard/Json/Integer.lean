import Microboard.Json.Basic

/-!
# Integers of fixed width

Fields with an integer type of their own take a number only if it is written as an integer and lies
in the range of the type.
-/

namespace Microboard.Json

def int64 (value : Int64) : Json :=
  .int value.toInt

/-- The integer of a value, if it lies between two bounds. -/
def intWithin? (low high : Int) (value : Json) : Option Int :=
  value.int?.filter fun i => low ≤ i ∧ i ≤ high

def uint8? (value : Json) : Option UInt8 :=
  (value.intWithin? 0 255).map fun i => UInt8.ofNat i.toNat

def uint16? (value : Json) : Option UInt16 :=
  (value.intWithin? 0 65535).map fun i => UInt16.ofNat i.toNat

def uint32? (value : Json) : Option UInt32 :=
  (value.intWithin? 0 4294967295).map fun i => UInt32.ofNat i.toNat

def int64? (value : Json) : Option Int64 :=
  (value.intWithin? Int64.minValue.toInt Int64.maxValue.toInt).map Int64.ofInt

end Microboard.Json
