import Microboard.Proofs.Flash
import Microboard.Proofs.Instruction.Decoding
import Microboard.Proofs.Machine.Steps

/-!
# A step that fails

A step can fail in one way only: there is a record to execute, and it cannot be read. Reading comes
before anything is carried out, so the machine is left as it was, except that it goes off and
remembers the fault: `failing_step_atomic`. Whatever is wrong with the record, the fault names its
opcode byte.
-/

namespace Microboard

/-- The error of a record that cannot be read names the byte at its place. -/
theorem Flash.opcode_of_record_error {flash : Flash} {offset : Nat} {cause : RecordError}
    (h : flash.record offset = .error cause) : cause.opcode = flash.read offset := by
  rcases flash.record_cases offset with ⟨length, i, -, -, hrecord⟩ |
    ⟨length, e, -, hdecode, hrecord⟩ | ⟨op, -, -, hrecord⟩ | ⟨-, -, hrecord⟩
  · cases hrecord.symm.trans h
  · cases hrecord.symm.trans h
    exact Instruction.opcode_of_decode_error hdecode
  · -- Without a length byte there is nothing to decode.
    cases hrecord.symm.trans h
    rfl
  · cases hrecord.symm.trans h
    rfl

namespace Machine

/-- A step fails if and only if the machine is on and inside flash, has no delay left, and cannot
    read the record at the program counter. Then it changes nothing but that the machine goes off
    and remembers the fault that the step returns. Nothing happens and no sample is drawn, the
    program counter still names the record, and the site of the fault is the byte of flash there
    together with the program counter. -/
theorem failing_step_atomic (m : Machine) :
    ((∃ fault, m.step.outcome = .error fault) ↔
      m.running = true ∧ m.delay = 0 ∧ ∃ offset, m.offset? = some offset ∧
        offset < flashCapacity ∧ ∃ cause, m.flash.record offset = .error cause) ∧
    ∀ fault, m.step.outcome = .error fault →
      m.step.machine = { m with running := false, fault := some fault } ∧
      m.step.events = [] ∧ m.step.machine.adc = m.adc ∧
      ∃ offset, m.step.machine.offset? = some offset ∧ m.step.machine.pc = m.pc ∧
        m.flash.record offset = .error fault.cause ∧
        m.flash.read? offset = some fault.site.1 ∧ fault.site.2 = m.pc := by
  constructor
  · constructor
    · rintro ⟨fault, hfault⟩
      obtain ⟨-, hdelay, ⟨offset, hlive, hrecord⟩, -⟩ := step_eq_of_fault hfault
      obtain ⟨hrunning, hoffset, hlt⟩ := live?_eq_some_iff.mp hlive
      exact ⟨hrunning, hdelay, offset, hoffset, hlt, fault.cause, hrecord⟩
    · rintro ⟨hrunning, hdelay, offset, hoffset, hlt, cause, hrecord⟩
      have hlive : m.live? = some offset := live?_eq_some_iff.mpr ⟨hrunning, hoffset, hlt⟩
      exact ⟨⟨cause, m.pc⟩, by rw [step_of_error hlive hdelay hrecord]⟩
  · intro fault hfault
    obtain ⟨hpc, -, ⟨offset, hlive, hrecord⟩, hstep⟩ := step_eq_of_fault hfault
    obtain ⟨-, hoffset, hlt⟩ := live?_eq_some_iff.mp hlive
    have hopcode : fault.cause.opcode = m.flash.read offset := Flash.opcode_of_record_error hrecord
    rw [hstep]
    refine ⟨rfl, rfl, rfl, offset, hoffset, rfl, hrecord, ?_, hpc⟩
    rw [Flash.read?, if_pos hlt, ← hopcode, Fault.site]

end Machine

end Microboard
