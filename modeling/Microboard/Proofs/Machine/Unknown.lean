import Microboard.Proofs.Listing.Chain
import Microboard.Proofs.Machine.Listed

/-!
# Unknown opcodes

A machine looks at the opcode of a record before anything else, and so it faults with an unknown
opcode wherever there is one: `outcome_unknown_iff`. A listing looks for the length byte first. The
two agree on every record that has a length byte, and on every known opcode: `unknown_opcode_listed`.
An unknown opcode in the last byte of an image is called a truncated record by the listing:
`unknown_opcode_not_always_listed`.
-/

namespace Microboard

open Instruction Listing

variable {opcode byte : UInt8} {operands : List UInt8} {offset : Nat} {cause : RecordError}

theorem Instruction.decode_unknown_iff :
    decode opcode operands = .error (.unknownOpcode byte) ↔
      Opcode.ofByte? opcode = none ∧ byte = opcode := by
  simp [decode_eq_error_iff]

namespace Flash

theorem record_unknown_iff {flash : Flash} :
    flash.record offset = .error (.unknownOpcode byte) ↔
      Opcode.ofByte? (flash.read offset) = none ∧ byte = flash.read offset := by
  rcases flash.record_cases offset with ⟨length, i, -, hdecode, hrecord⟩ |
    ⟨length, cause, -, hdecode, hrecord⟩ | ⟨op, -, hop, hrecord⟩ | ⟨-, hop, hrecord⟩
  · have hop := (decode_eq_ok_iff.mp hdecode).1.opcode_eq
    rw [hrecord, hop]
    simp
  · rw [← decode_unknown_iff, hdecode, hrecord]
    simp
  · rw [hrecord, hop]
    simp
  · rw [hrecord, hop]
    simp [eq_comm]

theorem Carries.read_of_getElem? {flash : Flash} {image : List UInt8} (h : flash.Carries image)
    (hopcode : image[offset]? = some opcode) : flash.read offset = opcode := by
  rw [h.read_eq, hopcode, Option.getD_some]

end Flash

/-- A record that is no instruction has an unknown opcode if and only if the listing says so, or has
    not even a length byte to look at. -/
theorem Listing.Fails.unknown_iff {image : List UInt8} (h : Fails image offset cause)
    (hopcode : image[offset]? = some opcode) :
    Opcode.ofByte? opcode = none ↔ cause = .unknownOpcode opcode ∨
      (cause = .truncated opcode 1 0 ∧ offset + 1 = image.length ∧
        Opcode.ofByte? opcode = none) := by
  cases h with
  | headless hopcode' hlength =>
    cases hopcode.symm.trans hopcode'
    obtain ⟨hlt, -⟩ := List.getElem?_eq_some_iff.mp hopcode
    have hend : offset + 1 = image.length :=
      Nat.le_antisymm hlt (List.getElem?_eq_none_iff.mp hlength)
    simp [hend]
  | bad hheader hdecode =>
    cases hopcode.symm.trans hheader.opcode_eq
    obtain ⟨hlt, -⟩ := List.getElem?_eq_some_iff.mp hheader.length_eq
    have hinside : offset + 1 ≠ image.length := Nat.ne_of_lt hlt
    constructor
    · intro hunknown
      rw [decode_of_unknown hunknown] at hdecode
      cases hdecode
      exact Or.inl rfl
    · rintro (rfl | ⟨-, hend, -⟩)
      · exact (decode_unknown_iff.mp hdecode).1
      · exact absurd hend hinside

namespace Machine

/-- A machine faults with an unknown opcode if and only if it stands at one. -/
theorem outcome_unknown_iff {m : Machine} (hrunning : m.running = true) (hdelay : m.delay = 0)
    (hpc : m.pc = addressOf offset) (hlt : offset < flashCapacity) :
    m.step.outcome = .error ⟨.unknownOpcode byte, addressOf offset⟩ ↔
      Opcode.ofByte? (m.flash.read offset) = none ∧ byte = m.flash.read offset := by
  have hlive : m.live? = some offset := live_of_running hrunning hpc hlt
  rw [← Flash.record_unknown_iff]
  rcases hrecord : m.flash.record offset with e | ⟨i, length⟩
  · rw [step_of_error hlive hdelay hrecord, hpc]
    simp
  · rw [step_of_ok hlive hdelay hrecord, retire_outcome]
    simp

/-- Where a listing is stopped by an error, a machine that has loaded the image and stands there
    faults with an unknown opcode if and only if the listing names this error, or the image ends
    with that opcode and the listing names the missing length byte. -/
theorem unknown_opcode_listed {image : Array UInt8} (hfits : image.size ≤ flashCapacity)
    (host : Machine) (hstop : (ofImage image.toList).stop = some (offset, cause)) :
    ∃ loaded opcode, host.load image = .ok loaded ∧ image[offset]? = some opcode ∧
      ∀ m : Machine, m.flash = loaded.flash → m.running = true → m.delay = 0 →
        m.pc = addressOf offset →
        (m.step.outcome = .error ⟨.unknownOpcode opcode, addressOf offset⟩ ↔
          cause = .unknownOpcode opcode ∨
            (cause = .truncated opcode 1 0 ∧ offset + 1 = image.size ∧
              Opcode.ofByte? opcode = none)) := by
  obtain ⟨-, hfails⟩ := stop_eq_some_iff.mp hstop
  have hlt : offset < image.size := by
    rw [← Array.length_toList]
    exact hfails.lt_length
  have hopcode : image.toList[offset]? = some image[offset] := by
    rw [Array.getElem?_toList, Array.getElem?_eq_getElem hlt]
  obtain ⟨flash, hload, hcarries⟩ := Flash.carries_of_load hfits host.flash
  refine ⟨host.withFlash flash, image[offset], by rw [load, hload]; rfl,
    Array.getElem?_eq_getElem hlt, ?_⟩
  intro m hflash hrunning hdelay hpc
  have hread : m.flash.read offset = image[offset] := by
    rw [hflash]
    exact hcarries.read_of_getElem? hopcode
  have hunknown := hfails.unknown_iff hopcode
  rw [Array.length_toList] at hunknown
  rw [outcome_unknown_iff hrunning hdelay hpc (Nat.lt_of_lt_of_le hlt hfits), hread, ← hunknown,
    and_iff_left rfl]

/-- The listing of this image is stopped by an unknown opcode that has a length byte, and the machine
    faults there with the same error. -/
theorem unknown_opcode_listed_within :
    let image : Array UInt8 := #[0x1A, 0x00, 0x42, 0x00]
    image.size ≤ flashCapacity ∧
      (ofImage image.toList).stop = some (2, .unknownOpcode 0x42) ∧
      ∃ loaded, (Machine.new {}).load image = .ok loaded ∧
        ({ loaded with running := true, pc := addressOf 2 } : Machine).step.outcome =
          .error ⟨.unknownOpcode 0x42, addressOf 2⟩ := by
  intro image
  have hfits : image.size ≤ flashCapacity := by decide
  have hstop : (ofImage image.toList).stop = some (2, .unknownOpcode 0x42) := by decide +kernel
  obtain ⟨loaded, opcode, hload, hopcode, hmachine⟩ :=
    unknown_opcode_listed hfits (Machine.new {}) hstop
  cases hopcode
  obtain ⟨flash, -, hloaded⟩ := load_eq_ok.mp hload
  have hdelay : loaded.delay = 0 := by
    rw [← hloaded]
    rfl
  let m : Machine := { loaded with running := true, pc := addressOf 2 }
  have hfault := (hmachine m rfl rfl hdelay rfl).mpr (Or.inl rfl)
  exact ⟨hfits, hstop, loaded, hload, hfault⟩

/-- A listing does not always name the unknown opcode that the machine faults with: the image may
    consist of this one byte. -/
theorem unknown_opcode_not_always_listed :
    ¬ ∀ (image : Array UInt8) (host : Machine) (offset : Nat) (cause : RecordError),
      image.size ≤ flashCapacity → (ofImage image.toList).stop = some (offset, cause) →
      ∃ loaded opcode, host.load image = .ok loaded ∧ image[offset]? = some opcode ∧
        ∀ m : Machine, m.flash = loaded.flash → m.running = true → m.delay = 0 →
          m.pc = addressOf offset →
          (cause = .unknownOpcode opcode ↔
            m.step.outcome = .error ⟨.unknownOpcode opcode, addressOf offset⟩) := by
  intro hall
  let image : Array UInt8 := #[0x42]
  have hfits : image.size ≤ flashCapacity := by decide
  have hstop : (ofImage image.toList).stop = some (0, .truncated 0x42 1 0) := by decide +kernel
  obtain ⟨loaded, opcode, hload, hopcode, hmachine⟩ := hall image (Machine.new {}) 0 _ hfits hstop
  cases hopcode
  obtain ⟨flash, hflash, hloaded⟩ := load_eq_ok.mp hload
  obtain ⟨other, hother, hcarries⟩ := Flash.carries_of_load hfits (Machine.new {}).flash
  cases hflash.symm.trans hother
  let m : Machine := { Machine.new {} with flash, running := true }
  have hread : m.flash.read 0 = 0x42 := hcarries.read_of_getElem? rfl
  have hfault : m.step.outcome = .error ⟨.unknownOpcode 0x42, addressOf 0⟩ := by
    rw [outcome_unknown_iff rfl rfl rfl (by decide), hread]
    exact ⟨rfl, rfl⟩
  have hsame : m.flash = loaded.flash := by
    rw [← hloaded]
    rfl
  cases (hmachine m hsame rfl rfl rfl).mpr hfault

end Machine

end Microboard
