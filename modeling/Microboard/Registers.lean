import Microboard.Instruction.Basic

/-!
# Registers

Sixteen registers of one byte each. Arithmetic wraps modulo 256, and a comparison takes the bytes
as unsigned. An index past the last register reads as zero and writes nothing.
-/

namespace Microboard

structure Registers where
  cells : Vector UInt8 registerCount := Vector.replicate registerCount 0
deriving DecidableEq, Repr

namespace Registers

def zero : Registers := {}

def get (registers : Registers) (r : UInt8) : UInt8 :=
  registers.cells[r.toNat]?.getD 0

def set (registers : Registers) (r value : UInt8) : Registers :=
  { registers with cells := registers.cells.setIfInBounds r.toNat value }

def add (registers : Registers) (destination source : UInt8) : Registers :=
  registers.set destination (registers.get destination + registers.get source)

def subtract (registers : Registers) (destination source : UInt8) : Registers :=
  registers.set destination (registers.get destination - registers.get source)

def compare (registers : Registers) (left right : UInt8) : Ordering :=
  Ord.compare (registers.get left) (registers.get right)

def toList (registers : Registers) : List UInt8 :=
  registers.cells.toList

/-! ### Reading after writing -/

@[simp] theorem get_zero (r : UInt8) : zero.get r = 0 := by
  simp only [get, zero, Vector.getElem?_replicate]
  split <;> rfl

theorem get_set {r : UInt8} (h : r.toNat < registerCount) (registers : Registers)
    (s value : UInt8) :
    (registers.set s value).get r = if r = s then value else registers.get r := by
  by_cases e : r = s
  · subst e
    simp [get, set, h]
  · have : s.toNat ≠ r.toNat := fun hn => e (UInt8.toNat_inj.mp hn.symm)
    simp [get, set, e, Vector.getElem?_setIfInBounds_ne this]

theorem get_set_of_ne {r s : UInt8} (h : r ≠ s) (registers : Registers) (value : UInt8) :
    (registers.set s value).get r = registers.get r := by
  have hne : s.toNat ≠ r.toNat := fun heq => h (UInt8.toNat_inj.mp heq.symm)
  simp only [get, set, Vector.getElem?_setIfInBounds_ne hne]

end Registers

/-- A comparison as a number: minus one, zero or one. -/
def flagValue : Ordering → Int
  | .lt => -1
  | .eq => 0
  | .gt => 1

end Microboard
