import Microboard.Text.Radix

/-!
# Pins

A bank of forty general purpose pins. A pin is low or high, and it has a mode. A write latches the
low bit of its value. Reading or writing a pin that does not exist is no error: the read gives
nothing and the write changes nothing.
-/

namespace Microboard

def pinCount : Nat := 40

/-- Direction that the host has chosen for a pin. -/
inductive PinMode where
  | input
  | output
deriving DecidableEq, Repr

def PinMode.name : PinMode → String
  | .input => "input"
  | .output => "output"

structure Pin where
  high : Bool := false
  mode : PinMode := .input
deriving DecidableEq, Repr

/-- The level of the pin as a byte, zero or one. -/
def Pin.level (pin : Pin) : UInt8 :=
  if pin.high then 1 else 0

structure Pins where
  cells : Vector Pin pinCount := Vector.replicate pinCount {}
deriving DecidableEq, Repr

namespace Pins

def level? (pins : Pins) (p : UInt8) : Option UInt8 :=
  pins.cells[p.toNat]?.map Pin.level

def has (p : UInt8) : Bool :=
  p.toNat < pinCount

/-- Applies `f` to pin `p`, if it exists. -/
def modify (pins : Pins) (p : UInt8) (f : Pin → Pin) : Pins :=
  if h : p.toNat < pinCount then
    { pins with cells := pins.cells.set p.toNat (f pins.cells[p.toNat]) }
  else pins

/-- Latches the low bit of `value` at pin `p`. -/
def write (pins : Pins) (p value : UInt8) : Pins :=
  pins.modify p fun pin => { pin with high := value % 2 = 1 }

def setMode (pins : Pins) (p : UInt8) (mode : PinMode) : Pins :=
  pins.modify p fun pin => { pin with mode }

def toList (pins : Pins) : List Pin :=
  pins.cells.toList

/-- A line for each pin with its index and its level. -/
def text (pins : Pins) : String :=
  String.join <| pins.toList.zipIdx.map fun (pin, index) =>
    "GPIO" ++ Text.decimal index ++ ": " ++ Text.decimal pin.level.toNat ++ "\n"

/-! ### Reading after writing -/

theorem getElem?_modify (pins : Pins) (p q : UInt8) (f : Pin → Pin) :
    (pins.modify p f).cells[q.toNat]? =
      if p = q then pins.cells[q.toNat]?.map f else pins.cells[q.toNat]? := by
  unfold modify
  by_cases h : p.toNat < pinCount
  · by_cases e : p = q
    · subst e
      simp [h]
    · have : p.toNat ≠ q.toNat := fun hn => e (UInt8.toNat_inj.mp hn)
      simp [h, e, Vector.getElem?_set_ne h this]
  · by_cases e : p = q
    · subst e
      simp [h]
    · simp [h, e]

end Pins

end Microboard
