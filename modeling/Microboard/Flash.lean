import Microboard.Instruction.Record

/-!
# Flash memory

Flash is a fixed number of cells of one byte each. Loading an image clears the cells that the
previous image occupied and writes the new image from the first cell on; the other cells are not
touched. An image that does not fit is rejected before anything is written. The board also has
working memory; no instruction reaches it, so it is always all zero, and only its size is known
here.
-/

namespace Microboard

def flashCapacity : Nat := 4 * 1024 * 1024

def ramCapacity : Nat := 520 * 1024

/-- Address of the first byte of flash. -/
def origin : UInt32 := 0x40000000

/-- Offset in flash of an address; none below the start of flash. -/
def offset? (address : UInt32) : Option Nat :=
  if origin ≤ address then some (address.toNat - origin.toNat) else none

/-- An image of this many bytes does not fit into flash of that capacity. -/
structure CapacityExceeded where
  size : Nat
  capacity : Nat
deriving DecidableEq, Repr

def CapacityExceeded.message (e : CapacityExceeded) : String :=
  "firmware of " ++ Text.decimal e.size ++ " bytes exceeds flash capacity of "
    ++ Text.decimal e.capacity ++ " bytes"

/-! ### Cells -/

namespace Flash

def cleared (count : Nat) (cells : Vector UInt8 flashCapacity) : Vector UInt8 flashCapacity :=
  count.fold (fun i _ cells => cells.setIfInBounds i 0) cells

def written (image : Array UInt8) (cells : Vector UInt8 flashCapacity) :
    Vector UInt8 flashCapacity :=
  image.size.fold (fun i _ cells => cells.setIfInBounds i image[i]) cells

theorem getElem?_cleared (count : Nat) (cells : Vector UInt8 flashCapacity) (j : Nat) :
    (cleared count cells)[j]? = if j < count then cells[j]?.map fun _ => 0 else cells[j]? := by
  induction count with
  | zero => simp [cleared]
  | succ count ih =>
    have hstep : cleared (count + 1) cells = (cleared count cells).setIfInBounds count 0 := by
      simp [cleared, Nat.fold_succ]
    rw [hstep, Vector.getElem?_setIfInBounds, ih]
    by_cases hj : count = j
    · subst hj
      by_cases hcell : count < flashCapacity
      · simp [hcell]
      · simp [hcell]
    · have hlt : j < count + 1 ↔ j < count := by omega
      simp only [if_neg hj, hlt]

theorem getElem?_written {image : Array UInt8} (hfits : image.size ≤ flashCapacity)
    (cells : Vector UInt8 flashCapacity) (j : Nat) :
    (written image cells)[j]? = if j < image.size then image[j]? else cells[j]? := by
  have key : ∀ (n : Nat) (hn : n ≤ image.size),
      (n.fold (fun i _ (cells : Vector UInt8 flashCapacity) =>
        cells.setIfInBounds i image[i]) cells)[j]? = if j < n then image[j]? else cells[j]? := by
    intro n
    induction n with
    | zero => simp
    | succ n ih =>
      intro hn
      rw [Nat.fold_succ, Vector.getElem?_setIfInBounds, ih (by omega)]
      by_cases hj : n = j
      · subst hj
        have hcell : n < flashCapacity := Nat.lt_of_lt_of_le hn hfits
        simp [hcell, Nat.lt_of_succ_le hn]
      · have hlt : j < n + 1 ↔ j < n := by omega
        simp only [if_neg hj, hlt]
  exact key image.size (Nat.le_refl _)

end Flash

/-! ### Flash -/

/-- The cells of flash, and how many of them the image that was loaded last occupies. The cells
    behind that image are clear. -/
structure Flash where
  cells : Vector UInt8 flashCapacity
  loaded : Nat
  loaded_le : loaded ≤ flashCapacity
  clear_behind : ∀ i, loaded ≤ i → cells[i]?.getD 0 = 0
deriving DecidableEq, Repr

namespace Flash

private theorem getElem?_clear (i : Nat) :
    (Vector.replicate flashCapacity (0 : UInt8))[i]?.getD 0 = 0 := by
  rw [Vector.getElem?_replicate]
  split <;> rfl

def empty : Flash where
  cells := Vector.replicate flashCapacity 0
  loaded := 0
  loaded_le := Nat.zero_le flashCapacity
  clear_behind := fun i _ => getElem?_clear i

/-- The byte behind an image that has been written over cleared cells. -/
private theorem behind_written {image : Array UInt8} (hfits : image.size ≤ flashCapacity)
    (flash : Flash) (i : Nat) (hi : image.size ≤ i) :
    (written image (cleared flash.loaded flash.cells))[i]?.getD 0 = 0 := by
  rw [getElem?_written hfits, if_neg (Nat.not_lt.mpr hi), getElem?_cleared]
  by_cases hold : i < flash.loaded
  · rw [if_pos hold]
    cases flash.cells[i]? <;> rfl
  · rw [if_neg hold]
    exact flash.clear_behind i (Nat.le_of_not_lt hold)

/-- Loads an image over whatever flash holds. -/
def load (image : Array UInt8) (flash : Flash := empty) : Except CapacityExceeded Flash :=
  if h : image.size ≤ flashCapacity then
    .ok ⟨written image (cleared flash.loaded flash.cells), image.size, h, behind_written h flash⟩
  else .error ⟨image.size, flashCapacity⟩

/-- The byte at an offset within the capacity. -/
def read (flash : Flash) (offset : Nat) : UInt8 :=
  flash.cells[offset]?.getD 0

def image (flash : Flash) : Array UInt8 :=
  flash.cells.toArray.extract 0 flash.loaded

/-- The byte at an offset, if flash reaches that far. -/
def read? (flash : Flash) (offset : Nat) : Option UInt8 :=
  if offset < flashCapacity then some (flash.read offset) else none

/-- The bytes from `offset` on, `length` of them or as many as flash has left. -/
def window (flash : Flash) (offset length : Nat) : List UInt8 :=
  (List.range (min length (flashCapacity - offset))).map fun i => flash.read (offset + i)

/-- Reads the record at an offset: the instruction and the length byte. At the very end of flash the
    length byte is missing; also there an unknown opcode is reported as such. -/
def record (flash : Flash) (offset : Nat) : Except RecordError (Instruction × UInt8) :=
  let opcode := flash.read offset
  match flash.read? (offset + 1) with
  | some length =>
    match Instruction.decode opcode
        (flash.window (offset + Opcode.headerLength) length.toNat) with
    | .ok i => .ok (i, length)
    | .error e => .error e
  | none =>
    if (Opcode.ofByte? opcode).isSome then .error (.truncated opcode 1 0)
    else .error (.unknownOpcode opcode)

/-! ### What reads see -/

@[simp] theorem length_window (flash : Flash) (offset length : Nat) :
    (flash.window offset length).length = min length (flashCapacity - offset) := by
  simp [window]

theorem read_of_loaded_le {flash : Flash} {offset : Nat} (h : flash.loaded ≤ offset) :
    flash.read offset = 0 :=
  flash.clear_behind offset h

end Flash

end Microboard
