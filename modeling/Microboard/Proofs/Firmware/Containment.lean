import Microboard.Proofs.Firmware.Jumps
import Microboard.Proofs.Machine.Fetch
import Microboard.Proofs.Machine.Session

/-!
# Firmware does not go astray

Firmware whose jumps all fit keeps to itself, however the host drives the machine that it was loaded
into: `firmware_contained`. The invariant is `Contained`. The program counter stands at a boundary
of the code, and the code can do nothing to what is outside of its repertoire; so all that can go
wrong is to run off the end.
-/

namespace Microboard

open Instruction

/-! ### Jumps that stay inside -/

/-- Every jump names a boundary of the code that it stands in. -/
def JumpsInside (code : List Instruction) : Prop :=
  ∀ condition target, Instruction.jump condition target ∈ code → Boundary 0 code target.toNat

/-- Without an overflow, all jumps of a program's code stay inside. -/
theorem Program.jumpsInside (p : Program) (h : overflowsOf p.compile.diagnostics = []) :
    JumpsInside p.code := by
  intro condition target hmem
  obtain ⟨a, ha⟩ := exists_mem_placed hmem 0
  obtain ⟨j, hj, -, rfl⟩ := Block.exists_jump p.blocks_plain ha
  rw [Jump.toNat_target (p.not_overflows h hj)]
  exact p.target_boundary hj

/-- Control goes on at a boundary behind any instruction. -/
theorem JumpsInside.next {before behind : List Instruction} {i : Instruction}
    (h : JumpsInside (before ++ i :: behind)) (flag : Ordering) :
    Boundary 0 (before ++ i :: behind) (i.next flag (size before)) := by
  rcases i.next_cases flag (size before) with hnext | ⟨condition, target, rfl, hnext⟩
  · rw [hnext]
    exact Boundary.behind before behind i
  · rw [hnext]
    exact h condition target (by simp)

/-! ### What code leaves alone -/

namespace Machine

/-- Nothing outside the repertoire of compiled code has changed since the host left the machine
    alone: the spare registers are still zero, pins and analog source are as they were, and nothing
    was sent. -/
structure Untouched (host m : Machine) : Prop where
  spare : ∀ r, workRegisters ≤ r → m.registers.get r = 0
  pins_eq : m.pins = host.pins
  adc_eq : m.adc = host.adc
  serial_eq : m.serial = #[]
  spi_eq : m.spi = #[]

namespace Untouched

variable {host m : Machine}

theorem congr (h : Untouched host m) {n : Machine}
    (hn : n.registers = m.registers ∧ n.pins = m.pins ∧ n.adc = m.adc ∧ n.serial = m.serial ∧
      n.spi = m.spi) : Untouched host n := by
  obtain ⟨hregisters, hpins, hadc, hserial, hspi⟩ := hn
  refine ⟨?_, hpins.trans h.pins_eq, hadc.trans h.adc_eq, hserial.trans h.serial_eq,
    hspi.trans h.spi_eq⟩
  rw [hregisters]
  exact h.spare

theorem withRegister (h : Untouched host m) {r : UInt8} (hr : r < workRegisters) (value : UInt8) :
    Untouched host { m with registers := m.registers.set r value } := by
  refine ⟨?_, h.pins_eq, h.adc_eq, h.serial_eq, h.spi_eq⟩
  intro s hs
  have hne : s ≠ r := by
    rintro rfl
    exact UInt8.lt_irrefl s (UInt8.lt_of_lt_of_le hr hs)
  show (m.registers.set r value).get s = 0
  rw [Registers.get_set_of_ne hne, h.spare s hs]

theorem execute (h : Untouched host m) {i : Instruction} (hi : i.Compiled) :
    Untouched host (m.execute i).1 := by
  cases i with
  | loadImmediate r value => exact h.withRegister hi value
  | add r s => exact h.withRegister hi.1 _
  | subtract r s => exact h.withRegister hi.1 _
  | storePin r p => cases hi
  | loadPin r p => cases hi
  | serialWrite r => cases hi
  | readAdc r => cases hi
  | spiWrite r => cases hi
  | screenPrint r =>
    simp only [Machine.execute]
    exact h.congr ⟨rfl, rfl, rfl, rfl, rfl⟩
  | _ => exact h.congr ⟨rfl, rfl, rfl, rfl, rfl⟩

end Untouched

/-! ### The invariant -/

/-- The machine keeps to the code that flash holds. -/
structure Contained (code : List Instruction) (host m : Machine) : Prop where
  holds : m.flash.Holds code
  pc_boundary : ∃ offset, Boundary 0 code offset ∧ m.pc = addressOf offset
  fault_eq : ∀ fault, m.fault = some fault → fault = endFault code ∧ size code < flashCapacity
  untouched : Untouched host m

/-- What a step of a contained machine can come to: it executes an instruction of the code, which
    is in the repertoire, or it runs off its end. -/
def Expected (code : List Instruction) : Except Fault Outcome → Prop
  | .ok (.executed pc i _) =>
    (∃ offset, Microboard.offset? pc = some offset ∧ (offset, i) ∈ placed 0 code) ∧ i.Compiled
  | .ok _ => True
  | .error fault => fault = endFault code ∧ size code < flashCapacity

namespace Contained

variable {code : List Instruction} {host m : Machine}

theorem start (h : Contained code host m) : Contained code host m.start :=
  ⟨h.holds, h.pc_boundary, h.fault_eq, h.untouched.congr ⟨rfl, rfl, rfl, rfl, rfl⟩⟩

theorem stop (h : Contained code host m) : Contained code host m.stop :=
  ⟨h.holds, h.pc_boundary, h.fault_eq, h.untouched.congr ⟨rfl, rfl, rfl, rfl, rfl⟩⟩

/-- A contained machine that steps is at an instruction of the code or at its end. -/
theorem cases_offset (h : Contained code host m) {offset : Nat} (hlive : m.live? = some offset) :
    m.pc = addressOf offset ∧ offset < flashCapacity ∧
      ((∃ before i behind, code = before ++ i :: behind ∧ offset = size before) ∨
        offset = size code) := by
  obtain ⟨a, hboundary, hpc⟩ := h.pc_boundary
  have ha : a ≤ flashCapacity := by
    have hle := hboundary.le
    have hfits := h.holds.fits
    omega
  have hoffset : a = offset ∧ offset < flashCapacity := by
    obtain ⟨-, hoffset, hlt⟩ := live?_eq_some_iff.mp hlive
    rw [Machine.offset?, hpc, offset?_addressOf ha] at hoffset
    exact ⟨Option.some.inj hoffset, hlt⟩
  obtain ⟨rfl, hlt⟩ := hoffset
  refine ⟨hpc, hlt, ?_⟩
  obtain ⟨before, behind, hcode, hsize⟩ := hboundary
  rw [Nat.zero_add] at hsize
  cases behind with
  | nil => exact Or.inr (by rw [hsize, hcode, List.append_nil])
  | cons i behind => exact Or.inl ⟨before, i, behind, hcode, hsize⟩

/-- A step keeps the machine contained, and comes to nothing unexpected. -/
theorem step (hcompiled : ∀ i ∈ code, i.Compiled) (hjumps : JumpsInside code)
    (h : Contained code host m) :
    Contained code host m.step.machine ∧ Expected code m.step.outcome := by
  rcases m.step_cases with ⟨-, hs⟩ | ⟨-, -, hs⟩ | ⟨offset, cause, hlive, -, hrecord, hs⟩ |
    ⟨offset, i, length, hlive, -, hrecord, hs⟩
  · rw [hs]
    exact ⟨h.stop, trivial⟩
  · rw [hs]
    exact ⟨⟨h.holds, h.pc_boundary, h.fault_eq, h.untouched.congr ⟨rfl, rfl, rfl, rfl, rfl⟩⟩,
      trivial⟩
  · obtain ⟨hpc, hlt, ⟨before, i, behind, rfl, rfl⟩ | rfl⟩ := h.cases_offset hlive
    · -- An instruction of the code would have been read.
      rw [h.holds.record_of_append (hcompiled i (by simp)).addressable] at hrecord
      cases hrecord
    · rw [h.holds.record_size] at hrecord
      cases hrecord
      have hend : Fault.mk (.unknownOpcode 0) m.pc = endFault code := by rw [hpc, endFault]
      rw [hs]
      refine ⟨⟨h.holds, h.pc_boundary, ?_, h.untouched.congr ⟨rfl, rfl, rfl, rfl, rfl⟩⟩, hend, hlt⟩
      intro fault hfault
      rw [← Option.some.inj hfault]
      exact ⟨hend, hlt⟩
  · obtain ⟨hpc, hlt, ⟨before, i', behind, rfl, rfl⟩ | rfl⟩ := h.cases_offset hlive
    · have hi : i'.Compiled := hcompiled i' (by simp)
      rw [h.holds.record_of_append hi.addressable] at hrecord
      cases hrecord
      obtain ⟨-, hflash, -, -, hfault, -, -⟩ := m.execute_frame i
      have huntouched := h.untouched.execute hi
      rw [hs, retire_canonical hpc]
      have hmem : (size before, i) ∈ placed 0 (before ++ i :: behind) := by
        have h₀ := mem_placed_append 0 before behind i
        rwa [Nat.zero_add] at h₀
      refine ⟨⟨?_, ⟨_, hjumps.next m.flag, rfl⟩, ?_, huntouched.congr ⟨rfl, rfl, rfl, rfl, rfl⟩⟩,
        ⟨size before, ?_, hmem⟩, hi⟩
      · show (m.execute i).1.flash.Holds _
        rw [hflash]
        exact h.holds
      · intro fault hsome
        exact h.fault_eq fault (hfault.symm.trans hsome)
      · rw [hpc, offset?_addressOf (Nat.le_of_lt hlt)]
    · rw [h.holds.record_size] at hrecord
      cases hrecord

end Contained

theorem contained_of_load {code : List Instruction} {image : Array UInt8}
    (himage : image.toList = bytes code) (hfits : image.size ≤ flashCapacity) (m : Machine) :
    ∃ loaded, m.load image = .ok loaded ∧ Contained code m loaded := by
  obtain ⟨flash, hload, hat⟩ := exists_at_start himage hfits m
  refine ⟨m.withFlash flash, hload, hat.holds, ⟨0, Boundary.start 0 code, rfl⟩, ?_, ?_, rfl, rfl,
    rfl, rfl⟩
  · intro fault hfault
    cases hfault
  · intro r _
    exact Registers.get_zero r

/-- Firmware without an overflow that fits into flash, loaded into any machine and switched on,
    keeps to itself in every session that only drives the machine: each instruction that is executed
    stands in the listing of the firmware at the offset of its address and takes no sample, the only
    fault is the zero behind the end of firmware that does not fill flash, the upper registers stay
    zero, pins and analog source stay as they were, and nothing is sent. -/
theorem firmware_contained (p : Program) (hoverflow : overflowsOf p.compile.diagnostics = [])
    (hfits : p.compile.code.size ≤ flashCapacity) (m : Machine) :
    ∃ loaded, m.load p.compile.code = .ok loaded ∧
      ∀ ops : List Operation, (∀ op ∈ ops, op.Drives) →
        let listing := Listing.ofImage p.compile.code.toList
        let runsOff := fun fault : Fault =>
          fault = ⟨.unknownOpcode 0, origin + UInt32.ofNat p.compile.code.size⟩ ∧
            p.compile.code.size < flashCapacity
        let final := loaded.start.performAll ops
        (∀ s ∈ loaded.start.stepsOfAll ops,
          (∀ pc i jumped, s.outcome = .ok (.executed pc i jumped) →
            (∃ offset, Microboard.offset? pc = some offset ∧ (offset, i) ∈ listing.entries) ∧
              ∀ r, i ≠ .readAdc r) ∧
          (∀ fault, s.outcome = .error fault → runsOff fault)) ∧
        (∀ fault, final.fault = some fault → runsOff fault) ∧
        (∀ r, workRegisters ≤ r → final.registers.get r = 0) ∧
        final.pins = m.pins ∧ final.serial = #[] ∧ final.spi = #[] ∧ final.adc = m.adc := by
  obtain ⟨loaded, hload, hcontained⟩ := contained_of_load (toList_compile_code p) hfits m
  refine ⟨loaded, hload, ?_⟩
  intro ops hops listing runsOff final
  have hstep : ∀ n, Contained p.code m n → Contained p.code m n.step.machine :=
    fun n hn => (hn.step p.code_compiled (p.jumpsInside hoverflow)).1
  obtain ⟨hfinal, hsteps⟩ :=
    drive_invariant hstep (fun _ hn => hn.start) (fun _ hn => hn.stop) hops hcontained.start
  have hrunsOff : ∀ fault, fault = endFault p.code ∧ size p.code < flashCapacity →
      runsOff fault := by
    rintro fault ⟨hfault, hlt⟩
    simp only [runsOff, ← p.size_code]
    exact ⟨hfault, hlt⟩
  refine ⟨?_, fun fault hfault => hrunsOff fault (hfinal.fault_eq fault hfault),
    hfinal.untouched.spare, hfinal.untouched.pins_eq, hfinal.untouched.serial_eq,
    hfinal.untouched.spi_eq, hfinal.untouched.adc_eq⟩
  intro s hs
  obtain ⟨before, hbefore, rfl⟩ := hsteps s hs
  have hexpected := (hbefore.step p.code_compiled (p.jumpsInside hoverflow)).2
  refine ⟨?_, ?_⟩
  · intro pc i jumped houtcome
    rw [houtcome] at hexpected
    obtain ⟨hlisted, hcompiled⟩ := hexpected
    simp only [listing, ofImage_compile]
    refine ⟨hlisted, ?_⟩
    rintro r rfl
    exact hcompiled
  · intro fault houtcome
    rw [houtcome] at hexpected
    exact hrunsOff fault hexpected

/-- A program that moves a dot: its firmware is contained. -/
theorem firmware_contained_moving_dot :
    let dot : Program :=
      [.declare "x" 3, .loop [.branch "x" .greater 200 [.assign "x" .set (.literal 0)],
        .assign "x" .add (.name "x"), .pixel (.shifted "x" .plus 1) (.literal 7)]]
    overflowsOf dot.compile.diagnostics = [] ∧ dot.compile.code.size ≤ flashCapacity ∧
      ∃ loaded, (Machine.new {}).load dot.compile.code = .ok loaded ∧
        ∀ ops : List Operation, (∀ op ∈ ops, op.Drives) →
          (loaded.start.performAll ops).pins = {} := by
  intro dot
  have hoverflow : overflowsOf dot.compile.diagnostics = [] := by decide
  have hfits : dot.compile.code.size ≤ flashCapacity := by decide
  refine ⟨hoverflow, hfits, ?_⟩
  obtain ⟨loaded, hload, hdriven⟩ := firmware_contained dot hoverflow hfits (Machine.new {})
  exact ⟨loaded, hload, fun ops hops => (hdriven ops hops).2.2.2.1⟩

end Machine

end Microboard
