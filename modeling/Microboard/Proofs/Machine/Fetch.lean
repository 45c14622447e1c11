import Microboard.Proofs.Firmware.Code
import Microboard.Proofs.Flash
import Microboard.Proofs.Machine.Steps

/-!
# Fetching from flash that holds code

A machine whose flash holds code fetches the instructions of the code, each at the offset at which
its record stands. Behind the code it finds a zero, which is no opcode.
-/

namespace Microboard

open Instruction

namespace Flash

/-- What is fetched behind an image is no record. -/
theorem Carries.record_length {flash : Flash} {image : List UInt8} (h : flash.Carries image) :
    flash.record image.length = .error (.unknownOpcode 0) := by
  have hopcode : flash.read image.length = 0 := by
    rw [h.read_eq, List.getElem?_eq_none (Nat.le_refl _), Option.getD_none]
  have hunknown : Opcode.ofByte? 0 = none := rfl
  rw [record, hopcode]
  cases hlength : flash.read? (image.length + 1) with
  | some length => simp only [decode, hunknown]
  | none => simp [hunknown]

/-- Flash holds code from its first cell on, and zeros behind it. -/
structure Holds (flash : Flash) (code : List Instruction) : Prop where
  fits : size code ≤ flashCapacity
  read_eq : ∀ i, flash.read i = (bytes code)[i]?.getD 0

theorem holds_of_load {image : Array UInt8} {code : List Instruction}
    (himage : image.toList = bytes code) (hfits : image.size ≤ flashCapacity) (flash : Flash) :
    ∃ loaded, flash.load image = .ok loaded ∧ loaded.Holds code := by
  obtain ⟨loaded, hload, hcarries⟩ := carries_of_load hfits flash
  rw [himage] at hcarries
  refine ⟨loaded, hload, ?_, hcarries.read_eq⟩
  rw [← length_bytes]
  exact hcarries.fits

namespace Holds

variable {flash : Flash} {before behind code : List Instruction} {i : Instruction}

theorem read_add (h : flash.Holds (before ++ behind)) (k : Nat) :
    flash.read (size before + k) = (bytes behind)[k]?.getD 0 := by
  rw [h.read_eq, bytes_append, List.getElem?_append_right (by rw [length_bytes]; omega),
    length_bytes, Nat.add_sub_cancel_left]

theorem window_operands (h : flash.Holds (before ++ i :: behind)) :
    flash.window (size before + Opcode.headerLength) i.opcode.operandSize = i.operands := by
  have hfits := h.fits
  rw [size_append, size_cons, Opcode.recordLength] at hfits
  apply List.ext_getElem
  · rw [length_window, length_operands]
    omega
  · intro k hk hk'
    have hread := h.read_add (Opcode.headerLength + k)
    rw [bytes_cons, encode_eq, ← Nat.add_assoc] at hread
    simp only [window, List.getElem_map, List.getElem_range]
    rw [hread]
    simp [Opcode.headerLength, Nat.add_comm 2 k, List.getElem?_append_left hk', hk']

/-- What is fetched where an instruction stands is the instruction and its length. -/
theorem record_of_append (h : flash.Holds (before ++ i :: behind)) (hi : i.Addressable) :
    flash.record (size before) = .ok (i, UInt8.ofNat i.opcode.operandSize) := by
  have hopcode : flash.read (size before) = i.opcode.byte := by
    have hread := h.read_add 0
    simpa [encode_eq] using hread
  have hlength : flash.read? (size before + 1) = some (UInt8.ofNat i.opcode.operandSize) := by
    have hread := h.read_add 1
    have hpos := recordLength_pos i.opcode
    have hfits := h.fits
    rw [size_append, size_cons] at hfits
    rw [read?, if_pos (by omega), hread]
    simp [encode_eq]
  have hdecode := decode_operands hi []
  rw [List.append_nil] at hdecode
  simp only [record, hopcode, hlength, toNat_operandSize, h.window_operands, hdecode]

theorem carries (h : flash.Holds code) : flash.Carries (bytes code) := by
  refine ⟨?_, h.read_eq⟩
  rw [length_bytes]
  exact h.fits

/-- What is fetched behind the code is no record. -/
theorem record_size (h : flash.Holds code) :
    flash.record (size code) = .error (.unknownOpcode 0) := by
  rw [← length_bytes]
  exact h.carries.record_length

end Holds

end Flash

/-! ### Addresses -/

def addressOf (offset : Nat) : UInt32 :=
  origin + UInt32.ofNat offset

theorem addressOf_add (offset more : Nat) :
    addressOf offset + UInt32.ofNat more = addressOf (offset + more) := by
  rw [addressOf, addressOf, UInt32.ofNat_add, UInt32.add_assoc]

theorem addressOf_toNat (target : UInt8) :
    addressOf target.toNat = origin + target.toUInt32 := by
  rw [addressOf, UInt32.ofNat_uInt8ToNat]

theorem toNat_addressOf {offset : Nat} (h : offset ≤ flashCapacity) :
    (addressOf offset).toNat = origin.toNat + offset := by
  have hcapacity : flashCapacity = 4194304 := rfl
  have horigin : origin.toNat = 1073741824 := rfl
  rw [addressOf, UInt32.toNat_add, UInt32.toNat_ofNat', horigin]
  omega

theorem offset?_addressOf {offset : Nat} (h : offset ≤ flashCapacity) :
    offset? (addressOf offset) = some offset := by
  have hle : origin ≤ addressOf offset := by
    rw [UInt32.le_iff_toNat_le, toNat_addressOf h]
    omega
  rw [offset?, if_pos hle, toNat_addressOf h, Nat.add_sub_cancel_left]

theorem Machine.live_of_running {m : Machine} {offset : Nat} (hrunning : m.running = true)
    (hpc : m.pc = addressOf offset) (hlt : offset < flashCapacity) : m.live? = some offset := by
  refine live?_eq_some_iff.mpr ⟨hrunning, ?_, hlt⟩
  rw [Machine.offset?, hpc, offset?_addressOf (Nat.le_of_lt hlt)]

/-- The offset at which control goes on behind an instruction. -/
def Instruction.next (flag : Ordering) (offset : Nat) (i : Instruction) : Nat :=
  match i.destination? flag with
  | some target => target.toNat
  | none => offset + i.opcode.recordLength

/-- Control goes on behind an instruction, or at the target that a jump names. -/
theorem Instruction.next_cases (i : Instruction) (flag : Ordering) (offset : Nat) :
    i.next flag offset = offset + i.opcode.recordLength ∨
      ∃ condition target, i = .jump condition target ∧ i.next flag offset = target.toNat := by
  cases i with
  | jump condition target =>
    by_cases hholds : condition.holds flag = true
    · right
      exact ⟨condition, target, rfl, by simp only [Instruction.next, destination?, hholds, if_true]⟩
    · left
      simp only [Instruction.next, destination?, hholds, Bool.false_eq_true, if_false]
  | _ => exact Or.inl rfl

namespace Machine

/-- A record is executed if it has the operands of an instruction, whatever bytes follow them. -/
theorem step_of_operands {m : Machine} {offset : Nat} {i : Instruction} {length : UInt8}
    (hlive : m.live? = some offset) (hdelay : m.delay = 0) (hi : i.Addressable)
    (hopcode : m.flash.read offset = i.opcode.byte)
    (hlength : m.flash.read? (offset + 1) = some length)
    (hoperands : i.operands <+:
      m.flash.window (offset + Opcode.headerLength) length.toNat) :
    m.step = m.retire i length := by
  obtain ⟨surplus, hwindow⟩ := hoperands
  apply step_of_ok hlive hdelay
  simp only [Flash.record, hopcode, hlength, ← hwindow, Instruction.decode_operands hi]

/-- Executing the canonical record of an instruction at an offset. -/
theorem retire_canonical {offset : Nat} {m : Machine} (h : m.pc = addressOf offset)
    (i : Instruction) :
    m.retire i (UInt8.ofNat i.opcode.operandSize) =
      ⟨{ (m.execute i).1 with
          pc := addressOf (i.next m.flag offset), counter := m.counter + 1 },
        .ok (.executed m.pc i (i.destination? m.flag).isSome), (m.execute i).2⟩ := by
  simp only [retire, Instruction.next]
  split
  · rename_i target hdestination
    simp only [hdestination, addressOf_toNat, Option.isSome_some]
  · rename_i hdestination
    simp only [hdestination, h, toNat_operandSize, addressOf_add, Opcode.recordLength,
      Option.isSome_none]

/-- A machine that is on and at an instruction of its code passes a cycle of a delay or executes the
    instruction. -/
theorem step_at_instruction {before behind : List Instruction} {i : Instruction} {m : Machine}
    (hholds : m.flash.Holds (before ++ i :: behind)) (hi : i.Addressable)
    (hrunning : m.running = true) (hpc : m.pc = addressOf (size before)) :
    (m.delay ≠ 0 ∧
        m.step = ⟨{ m with delay := m.delay - 1 }, .ok (.delayed (m.delay - 1)), []⟩) ∨
      (m.delay = 0 ∧
        m.step = ⟨{ (m.execute i).1 with
            pc := addressOf (i.next m.flag (size before)), counter := m.counter + 1 },
          .ok (.executed m.pc i (i.destination? m.flag).isSome), (m.execute i).2⟩) := by
  have hlt : size before < flashCapacity := by
    have hfits := hholds.fits
    have hpos := recordLength_pos i.opcode
    rw [size_append, size_cons] at hfits
    omega
  have hlive : m.live? = some (size before) := live_of_running hrunning hpc hlt
  by_cases hdelay : m.delay = 0
  · right
    rw [step_of_ok hlive hdelay (hholds.record_of_append hi)]
    exact ⟨hdelay, retire_canonical hpc i⟩
  · left
    exact ⟨hdelay, step_of_delay hlive hdelay⟩

/-! ### Running code -/

/-- The machine is on, has met no fault, and is about to fetch at an offset of the code that flash
    holds. Where flash ends it halts, whatever is left of a delay. -/
structure At (code : List Instruction) (offset : Nat) (m : Machine) : Prop where
  holds : m.flash.Holds code
  running_eq : m.running = true
  fault_eq : m.fault = none
  ready : offset < flashCapacity → m.delay = 0
  pc_eq : m.pc = addressOf offset

/-- A machine that has loaded the bytes of code and is switched on is at the start of the code. -/
theorem exists_at_start {image : Array UInt8} {code : List Instruction}
    (himage : image.toList = bytes code) (hfits : image.size ≤ flashCapacity) (m : Machine) :
    ∃ flash, m.load image = .ok (m.withFlash flash) ∧ (m.withFlash flash).start.At code 0 := by
  obtain ⟨flash, hload, hholds⟩ := Flash.holds_of_load himage hfits m.flash
  exact ⟨flash, load_eq_ok.mpr ⟨flash, hload, rfl⟩, hholds, rfl, rfl, fun _ => rfl, rfl⟩

/-- What is remembered when control runs off the end of code. -/
def endFault (code : List Instruction) : Fault :=
  ⟨.unknownOpcode 0, addressOf (size code)⟩

namespace At

variable {code before behind : List Instruction} {i : Instruction} {m : Machine}

theorem live_eq {offset : Nat} (h : m.At code offset) (hlt : offset < flashCapacity) :
    m.live? = some offset :=
  live_of_running h.running_eq h.pc_eq hlt

theorem step_eq (h : m.At code (size before)) (hcode : code = before ++ i :: behind)
    (hlt : size before < flashCapacity) (hi : i.Addressable) :
    m.step = m.retire i (UInt8.ofNat i.opcode.operandSize) := by
  have hholds := h.holds
  rw [hcode] at hholds
  simp only [step, h.live_eq hlt, h.ready hlt, hholds.record_of_append hi, ne_eq, not_true_eq_false,
    if_false]

/-- Behind the code, the zero that follows is a fault. -/
theorem step_of_lt (h : m.At code (size code)) (hlt : size code < flashCapacity) :
    m.step = ⟨{ m with running := false, fault := some (endFault code) },
      .error (endFault code), []⟩ := by
  simp only [step, h.live_eq hlt, h.ready hlt, h.holds.record_size, ne_eq, not_true_eq_false,
    if_false, h.pc_eq, endFault]

theorem step_of_full (h : m.At code (size code)) (hfull : size code = flashCapacity) :
    m.step = ⟨m.stop, .ok .halted, []⟩ := by
  have hlive : m.live? = none := by
    rw [live?, h.running_eq, if_pos rfl, offset?, h.pc_eq, offset?_addressOf h.holds.fits]
    simp [hfull]
  simp only [step, hlive]

end At

end Machine

end Microboard
