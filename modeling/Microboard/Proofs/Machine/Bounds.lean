import Microboard.Proofs.Flash
import Microboard.Proofs.Instruction.Decoding
import Microboard.Proofs.Machine.Session

/-!
# Nothing leaves its bounds

An image can be any string of bytes, so the length byte of a record near the end of flash can send
the program counter behind it. It stays within reach of one such byte, because nothing is executed
there: `InBounds.step`. Whatever a host loads and does, the machine therefore never computes an
address that does not fit, never reads outside flash, and never names a register that does not
exist: `session_in_bounds`.
-/

namespace Microboard.Machine

/-- The program counter lies in flash, or behind it within reach of one length byte. -/
structure InBounds (m : Machine) : Prop where
  origin_le : origin.toNat ≤ m.pc.toNat
  pc_le : m.pc.toNat ≤ origin.toNat + flashCapacity + 255

theorem pc_retire_of_some {m : Machine} {i : Instruction} {target : UInt8}
    (h : i.destination? m.flag = some target) (length : UInt8) :
    (m.retire i length).machine.pc.toNat = origin.toNat + target.toNat := by
  have hpc : (m.retire i length).machine.pc = origin + target.toUInt32 := by
    simp only [retire, h]
  have hlt := target.toNat_lt
  have horigin : origin.toNat = 1073741824 := rfl
  rw [hpc, UInt32.toNat_add, UInt8.toNat_toUInt32]
  omega

/-- Behind a record that lies in flash there is no need to wrap around. -/
theorem toNat_pc_add {m : Machine} {offset : Nat} (h : m.pc.toNat = origin.toNat + offset)
    (hlt : offset < flashCapacity) (length : UInt8) :
    (m.pc + UInt32.ofNat (Opcode.headerLength + length.toNat)).toNat =
      m.pc.toNat + (Opcode.headerLength + length.toNat) := by
  have hcapacity : flashCapacity = 4194304 := rfl
  have horigin : origin.toNat = 1073741824 := rfl
  have hheader : Opcode.headerLength = 2 := rfl
  have hlength := length.toNat_lt
  rw [UInt32.toNat_add, UInt32.toNat_ofNat']
  omega

theorem toNat_pc_of_offset {m : Machine} {offset : Nat} (h : m.offset? = some offset) :
    m.pc.toNat = origin.toNat + offset := by
  simp only [offset?, Microboard.offset?] at h
  split at h
  · rename_i hle
    have hpc := UInt32.le_iff_toNat_le.mp hle
    have hoffset := Option.some.inj h
    omega
  · cases h

namespace InBounds

variable {m : Machine}

theorem congr (h : m.InBounds) {n : Machine} (hpc : n.pc = m.pc) : n.InBounds :=
  ⟨hpc ▸ h.origin_le, hpc ▸ h.pc_le⟩

theorem offset_eq (h : m.InBounds) :
    ∃ offset, m.offset? = some offset ∧ m.pc.toNat = origin.toNat + offset ∧
      offset ≤ flashCapacity + 255 := by
  have hle : origin ≤ m.pc := UInt32.le_iff_toNat_le.mpr h.origin_le
  have horigin := h.origin_le
  have hpc := h.pc_le
  refine ⟨m.pc.toNat - origin.toNat, if_pos hle, ?_, ?_⟩
  · omega
  · omega

/-- A record that is executed has a length byte in flash, so it starts one byte before the end at
    the latest. -/
theorem retire {offset : Nat} {i : Instruction} {length : UInt8} (hlive : m.live? = some offset)
    (hrecord : m.flash.record offset = .ok (i, length)) : (m.retire i length).machine.InBounds := by
  obtain ⟨-, hoffset, hlt⟩ := live?_eq_some_iff.mp hlive
  have hpc := toNat_pc_of_offset hoffset
  have hcapacity : flashCapacity = 4194304 := rfl
  have hheader : Opcode.headerLength = 2 := rfl
  rcases hdestination : i.destination? m.flag with _ | target
  · have hnext : (m.retire i length).machine.pc =
        m.pc + UInt32.ofNat (Opcode.headerLength + length.toNat) := by
      simp only [Machine.retire, hdestination]
    have hsum := toNat_pc_add hpc hlt length
    obtain ⟨hread, -⟩ := Flash.record_eq_ok hrecord
    have hinside : offset + 1 < flashCapacity := by
      simp only [Flash.read?] at hread
      split at hread
      · assumption
      · cases hread
    have hlength := length.toNat_lt
    constructor
    · rw [hnext, hsum]
      omega
    · rw [hnext, hsum]
      omega
  · have hjump := pc_retire_of_some hdestination length
    have htarget := target.toNat_lt
    constructor
    · rw [hjump]
      omega
    · rw [hjump]
      omega

theorem step (h : m.InBounds) : m.step.machine.InBounds := by
  rcases m.step_cases with ⟨-, hs⟩ | ⟨-, -, hs⟩ | ⟨_, _, -, -, -, hs⟩ |
    ⟨offset, i, length, hlive, -, hrecord, hs⟩
  · rw [hs]
    exact h.congr rfl
  · rw [hs]
    exact h.congr rfl
  · rw [hs]
    exact h.congr rfl
  · rw [hs]
    exact .retire hlive hrecord

theorem new (settings : Settings) : (Machine.new settings).InBounds := by
  have hpc : (Machine.new settings).pc = origin := rfl
  constructor
  · exact Nat.le_of_eq (congrArg UInt32.toNat hpc.symm)
  · rw [hpc]
    omega

theorem perform (h : m.InBounds) (op : Operation) : (m.perform op).machine.InBounds := by
  cases op with
  | load image =>
    rcases hload : m.flash.load image with e | flash
    · rw [perform_load_of_error hload]
      exact h
    · rw [perform_load_of_ok hload]
      exact (new m.settings).congr rfl
  | step => exact h.step
  | tick => exact run_invariant (fun _ hm => hm.step) _ h
  | run budget => exact run_invariant (fun _ hm => hm.step) budget h
  | _ => exact h.congr rfl

theorem performAll (h : m.InBounds) (ops : List Operation) : (m.performAll ops).InBounds :=
  performAll_invariant (fun _ op _ hm => hm.perform op) m h

theorem after (h : m.InBounds) (k : Nat) : (m.after k).InBounds :=
  after_invariant (fun _ hm => hm.step) k h

end InBounds

theorem level_of_level? {pins : Pins} {p level : UInt8} (h : pins.level? p = some level) :
    level = 0 ∨ level = 1 := by
  obtain ⟨pin, -, rfl⟩ := Option.map_eq_some_iff.mp h
  unfold Pin.level
  split
  · exact Or.inr rfl
  · exact Or.inl rfl

/-- Whatever images a host has loaded and whatever it has done, also after any steps of a batch, the
    program counter lies at most 255 bytes behind flash and never below it, and every pin is low or
    high. The operands of the record that a step fetches are a slice of the cells. An instruction
    that a step executes names only registers that exist, and it leads to its target or to the sum
    of the program counter and the length of its record, which does not wrap around. -/
theorem session_in_bounds (settings : Settings) (history : List Operation) (k : Nat) :
    let m := ((Machine.new settings).performAll history).after k
    (∃ offset, m.offset? = some offset ∧ m.pc.toNat = origin.toNat + offset ∧
      offset ≤ flashCapacity + 255) ∧
    (∀ p level, m.pins.level? p = some level → level = 0 ∨ level = 1) ∧
    (∀ offset length, m.live? = some offset → m.flash.read? (offset + 1) = some length →
      let start := Flash.windowStart (offset + Opcode.headerLength)
      let stop := Flash.windowEnd (offset + Opcode.headerLength) length.toNat
      start ≤ stop ∧ stop ≤ flashCapacity ∧
        m.flash.window (offset + Opcode.headerLength) length.toNat =
          (m.flash.cells.toArray.extract start stop).toList) ∧
    ∀ pc i jumped, m.step.outcome = .ok (.executed pc i jumped) →
      i.Addressable ∧ pc = m.pc ∧
        match i.destination? m.flag with
        | some target => m.step.machine.pc.toNat = origin.toNat + target.toNat
        | none => ∃ offset length, m.offset? = some offset ∧
          m.flash.read? (offset + 1) = some length ∧
          m.step.machine.pc.toNat = m.pc.toNat + (Opcode.headerLength + length.toNat) := by
  intro m
  have hm : m.InBounds := ((InBounds.new settings).performAll history).after k
  refine ⟨hm.offset_eq, fun _ _ => level_of_level?, ?_, ?_⟩
  · intro offset length hlive hlength start stop
    exact ⟨Flash.windowStart_le_windowEnd _ _, Nat.min_le_right _ _,
      Flash.window_eq_extract _ _ _⟩
  · intro pc i jumped houtcome
    obtain ⟨offset, length, hlive, hrecord, hstep, hpc, -⟩ := retire_of_executed houtcome
    obtain ⟨hlength, hdecode⟩ := Flash.record_eq_ok hrecord
    obtain ⟨-, hoffset, hlt⟩ := live?_eq_some_iff.mp hlive
    refine ⟨Instruction.addressable_of_decode hdecode, hpc, ?_⟩
    rw [hstep]
    rcases hdestination : i.destination? m.flag with _ | target
    · refine ⟨offset, length, hoffset, hlength, ?_⟩
      rw [← toNat_pc_add (toNat_pc_of_offset hoffset) hlt length]
      simp only [retire, hdestination]
    · exact pc_retire_of_some hdestination length

end Microboard.Machine
