import Microboard.Proofs.Instruction.Decoding
import Microboard.Proofs.Machine.Fetch

/-!
# Records at the end of flash

The window through which a machine reads operands is cut off where flash ends. A record that runs
past the end is a fault only if operands are missing that its opcode consumes: `step_past_end`. A
record whose surplus operands alone lie behind the end is executed: `past_end_not_always_truncated`.
-/

namespace Microboard

namespace Flash

/-- A record runs past the end of flash: its length byte, or operands that it claims, lie behind. -/
def PastEnd (flash : Flash) (offset : Nat) : Prop :=
  ∀ length, flash.read? (offset + 1) = some length →
    flashCapacity < offset + Opcode.headerLength + length.toNat

variable {flash : Flash} {offset : Nat} {op : Opcode}

theorem record_past_end_of_short (hlt : offset < flashCapacity)
    (hop : Opcode.ofByte? (flash.read offset) = some op) (hpast : flash.PastEnd offset)
    (hshort : flashCapacity < offset + Opcode.headerLength + op.operandSize) :
    flash.record offset = .error (.truncated (flash.read offset)
      (if offset + 1 = flashCapacity then 1 else op.operandSize)
      (flashCapacity - (offset + Opcode.headerLength))) := by
  have hheader : Opcode.headerLength = 2 := rfl
  by_cases hlast : offset + 1 = flashCapacity
  · -- No length byte: that one byte is missing.
    have hnone : flash.read? (offset + 1) = none := by
      rw [read?, if_neg (by omega)]
    have hzero : flashCapacity - (offset + Opcode.headerLength) = 0 := by omega
    simp only [record, hnone, hop, Option.isSome_some, if_pos, if_pos hlast, hzero]
  · -- The record claims more than there is, so the window ends with flash.
    have hsome : flash.read? (offset + 1) = some (flash.read (offset + 1)) := by
      rw [read?, if_pos (by omega)]
    have hover := hpast _ hsome
    have hwindow : (flash.window (offset + Opcode.headerLength)
        (flash.read (offset + 1)).toNat).length =
          flashCapacity - (offset + Opcode.headerLength) := by
      rw [length_window]
      omega
    have hmissing : (flash.window (offset + Opcode.headerLength)
        (flash.read (offset + 1)).toNat).length < op.operandSize := by
      omega
    have hdecode := Instruction.decode_of_short hop hmissing
    rw [hwindow] at hdecode
    simp only [record, hsome, hdecode, if_neg hlast]

theorem record_past_end_of_le
    (hop : Opcode.ofByte? (flash.read offset) = some op) (hpast : flash.PastEnd offset)
    (hle : offset + Opcode.headerLength + op.operandSize ≤ flashCapacity) :
    (∃ i, flash.record offset = .ok (i, flash.read (offset + 1)) ∧ i.opcode = op) ∨
      ∃ r, flash.record offset = .error (.invalidRegister (flash.read offset) r) := by
  have hheader : Opcode.headerLength = 2 := rfl
  have hsome : flash.read? (offset + 1) = some (flash.read (offset + 1)) := by
    rw [read?, if_pos (by omega)]
  have hover := hpast _ hsome
  have henough : op.operandSize ≤ (flash.window (offset + Opcode.headerLength)
      (flash.read (offset + 1)).toNat).length := by
    rw [length_window]
    omega
  rcases Instruction.decode_of_le hop henough with ⟨i, hdecode, hi⟩ | ⟨r, hdecode⟩
  · exact Or.inl ⟨i, by simp only [record, hsome, hdecode], hi⟩
  · exact Or.inr ⟨r, by simp only [record, hsome, hdecode]⟩

/-- Flash can end with any two bytes. -/
theorem exists_ending (last second : UInt8) :
    ∃ flash : Flash, flash.read (flashCapacity - 2) = second ∧
      flash.read (flashCapacity - 1) = last := by
  let image : Array UInt8 := Array.replicate (flashCapacity - 2) 0 ++ #[second, last]
  have hfits : image.size ≤ flashCapacity := by
    simp [image, flashCapacity]
  obtain ⟨flash, -, -, hread⟩ := load_of_size_le hfits empty
  refine ⟨flash, ?_, ?_⟩
  · rw [hread]
    simp [image]
  · rw [hread]
    simp [image, flashCapacity]

theorem pastEnd_of_ending {last : UInt8} (hlast : flash.read (flashCapacity - 1) = last)
    (hpos : 0 < last.toNat) : flash.PastEnd (flashCapacity - 2) := by
  have hheader : Opcode.headerLength = 2 := rfl
  have hcapacity : flashCapacity = 4194304 := rfl
  intro length hlength
  have hlt : flashCapacity - 2 + 1 < flashCapacity := by omega
  have hindex : flashCapacity - 2 + 1 = flashCapacity - 1 := by omega
  rw [read?, if_pos hlt, hindex, hlast] at hlength
  cases hlength
  omega

end Flash

namespace Machine

variable {m : Machine} {offset : Nat} {op : Opcode}

/-- The step that meets a record that is no instruction: nothing changes but that the machine goes
    off and remembers why. -/
def failing (m : Machine) (cause : RecordError) : Step :=
  ⟨{ m with running := false, fault := some ⟨cause, m.pc⟩ }, .error ⟨cause, m.pc⟩, []⟩

theorem step_past_end_of_le (hrunning : m.running = true) (hdelay : m.delay = 0)
    (hpc : m.pc = addressOf offset) (hop : Opcode.ofByte? (m.flash.read offset) = some op)
    (hpast : m.flash.PastEnd offset)
    (hle : offset + Opcode.headerLength + op.operandSize ≤ flashCapacity) :
    (∃ i, i.opcode = op ∧ m.step = m.retire i (m.flash.read (offset + 1))) ∨
      ∃ r, m.step = m.failing (.invalidRegister (m.flash.read offset) r) := by
  have hlt : offset < flashCapacity := by
    have hheader : Opcode.headerLength = 2 := rfl
    omega
  have hlive := live_of_running hrunning hpc hlt
  rcases Flash.record_past_end_of_le hop hpast hle with ⟨i, hrecord, hi⟩ | ⟨r, hrecord⟩
  · exact Or.inl ⟨i, hi, step_of_ok hlive hdelay hrecord⟩
  · exact Or.inr ⟨r, step_of_error hlive hdelay hrecord⟩

/-- A record of a known opcode that runs past the end of flash stops the machine with a truncation
    fault, and nothing is executed, if the end cuts off operands that the opcode consumes. If it
    only cuts off bytes that the record claims besides, it is read like any other record: it is
    executed, unless it names a register that does not exist. -/
theorem step_past_end (hrunning : m.running = true) (hdelay : m.delay = 0)
    (hpc : m.pc = addressOf offset) (hlt : offset < flashCapacity)
    (hop : Opcode.ofByte? (m.flash.read offset) = some op) (hpast : m.flash.PastEnd offset) :
    if flashCapacity < offset + Opcode.headerLength + op.operandSize then
      m.step = m.failing (.truncated (m.flash.read offset)
        (if offset + 1 = flashCapacity then 1 else op.operandSize)
        (flashCapacity - (offset + Opcode.headerLength)))
    else
      (∃ i, i.opcode = op ∧ m.step = m.retire i (m.flash.read (offset + 1))) ∨
        ∃ r, m.step = m.failing (.invalidRegister (m.flash.read offset) r) := by
  split
  · rename_i hshort
    exact step_of_error (live_of_running hrunning hpc hlt) hdelay
      (Flash.record_past_end_of_short hlt hop hpast hshort)
  · rename_i hle
    exact step_past_end_of_le hrunning hdelay hpc hop hpast (Nat.le_of_not_lt hle)

/-- In the last two bytes of flash, a record that should load a literal lacks its operands. -/
theorem step_past_end_load :
    ∃ m : Machine, m.running = true ∧ m.delay = 0 ∧ m.pc = addressOf (flashCapacity - 2) ∧
      Opcode.ofByte? (m.flash.read (flashCapacity - 2)) = some .loadImmediate ∧
      m.flash.PastEnd (flashCapacity - 2) ∧ m.step = m.failing (.truncated 0x01 2 0) := by
  obtain ⟨flash, hopcode, hlast⟩ := Flash.exists_ending 0x02 0x01
  let m : Machine :=
    { Machine.new {} with flash, running := true, pc := addressOf (flashCapacity - 2) }
  have hop : Opcode.ofByte? (m.flash.read (flashCapacity - 2)) = some .loadImmediate := by
    rw [hopcode]
    rfl
  have hpast : m.flash.PastEnd (flashCapacity - 2) := Flash.pastEnd_of_ending hlast (by decide)
  have hstep := step_past_end rfl rfl rfl (by decide) hop hpast
  rw [if_pos (by decide), if_neg (by decide), hopcode] at hstep
  refine ⟨m, rfl, rfl, rfl, hop, hpast, ?_⟩
  rw [hstep]
  rfl

/-- Not every record that runs past the end of flash is a truncation fault: in the last two bytes,
    a record that clears the screen may claim any number of bytes. -/
theorem past_end_not_always_truncated :
    ¬ ∀ (m : Machine) (offset : Nat) (op : Opcode), m.running = true → m.delay = 0 →
      m.pc = addressOf offset → offset < flashCapacity →
      Opcode.ofByte? (m.flash.read offset) = some op → m.flash.PastEnd offset →
      ∃ code needed available, m.step.outcome = .error ⟨.truncated code needed available, m.pc⟩ := by
  intro hall
  obtain ⟨flash, hopcode, hlast⟩ := Flash.exists_ending 0xFF 0x1A
  let m : Machine :=
    { Machine.new {} with flash, running := true, pc := addressOf (flashCapacity - 2) }
  have hop : Opcode.ofByte? (m.flash.read (flashCapacity - 2)) = some .screenClear := by
    rw [hopcode]
    rfl
  have hpast : m.flash.PastEnd (flashCapacity - 2) := Flash.pastEnd_of_ending hlast (by decide)
  obtain ⟨code, needed, available, houtcome⟩ :=
    hall m (flashCapacity - 2) .screenClear rfl rfl rfl (by decide) hop hpast
  rcases step_past_end_of_le rfl rfl rfl hop hpast (by decide) with ⟨i, -, hstep⟩ | ⟨r, hstep⟩
  · rw [hstep, retire_outcome] at houtcome
    cases houtcome
  · rw [hstep] at houtcome
    cases houtcome

end Machine

end Microboard
