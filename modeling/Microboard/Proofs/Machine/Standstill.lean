import Microboard.Proofs.Machine.Faults

/-!
# A fault on record holds the machine

A fault is written down at the record that could not be read, and from then on nothing can move the
program counter or change flash but the load that takes the fault off the record. So a fault on
record always describes the record under the program counter (`Truthful`), and whatever the host
does before the next load, all that belongs to the run stands still: `fault_describes_record`.
-/

namespace Microboard.Machine

/-- What belongs to a run, apart from the registers, is in `n` as it is in `m`. -/
structure Still (m n : Machine) : Prop where
  pc_eq : n.pc = m.pc
  flash_eq : n.flash = m.flash
  flag_eq : n.flag = m.flag
  delay_eq : n.delay = m.delay
  serial_eq : n.serial = m.serial
  spi_eq : n.spi = m.spi
  panel_eq : n.panel = m.panel
  counter_eq : n.counter = m.counter
  fault_eq : n.fault = m.fault

namespace Still

variable {m n o : Machine}

theorem refl (m : Machine) : m.Still m :=
  ⟨rfl, rfl, rfl, rfl, rfl, rfl, rfl, rfl, rfl⟩

theorem trans (h : m.Still n) (h' : n.Still o) : m.Still o where
  pc_eq := h'.pc_eq.trans h.pc_eq
  flash_eq := h'.flash_eq.trans h.flash_eq
  flag_eq := h'.flag_eq.trans h.flag_eq
  delay_eq := h'.delay_eq.trans h.delay_eq
  serial_eq := h'.serial_eq.trans h.serial_eq
  spi_eq := h'.spi_eq.trans h.spi_eq
  panel_eq := h'.panel_eq.trans h.panel_eq
  counter_eq := h'.counter_eq.trans h.counter_eq
  fault_eq := h'.fault_eq.trans h.fault_eq

end Still

namespace Stuck

variable {fault : Fault} {m n : Machine}

/-- A step of a machine that is stuck halts, or meets the fault once more. -/
theorem step_still (h : m.Stuck fault) :
    (m.step.outcome = .ok .halted ∨ m.step.outcome = .error fault) ∧ m.step.events = [] ∧
      m.Still m.step.machine := by
  rcases hrunning : m.running with _ | _
  · rw [step_of_off hrunning]
    exact ⟨Or.inl rfl, rfl, .refl m⟩
  · rw [h.step_of_on hrunning]
    exact ⟨Or.inr rfl, rfl, rfl, rfl, rfl, rfl, rfl, rfl, rfl, rfl, rfl⟩

theorem emitted_eq (h : m.Stuck fault) (k : Nat) : m.emitted k = [] := by
  induction k generalizing m with
  | zero => rfl
  | succ k ih =>
    obtain ⟨-, hevents, -⟩ := h.step_still
    rw [emitted, hevents, ih h.step]
    rfl

end Stuck

/-- A machine is stuck, and what belongs to the run is as it is in `m`. -/
def StuckAs (fault : Fault) (m n : Machine) : Prop :=
  n.Stuck fault ∧ m.Still n

namespace StuckAs

variable {fault : Fault} {m n : Machine}

theorem step (h : StuckAs fault m n) : StuckAs fault m n.step.machine := by
  obtain ⟨hstuck, hstill⟩ := h
  obtain ⟨-, -, hstep⟩ := hstuck.step_still
  exact ⟨hstuck.step, hstill.trans hstep⟩

theorem run (h : StuckAs fault m n) (budget : Nat) :
    StuckAs fault m (n.run budget).machine ∧ (n.run budget).events = [] := by
  obtain ⟨-, hevents, -⟩ := run_eq budget n
  constructor
  · exact run_invariant (fun _ hn => hn.step) budget h
  · rw [hevents]
    exact h.1.emitted_eq budget

theorem perform (h : StuckAs fault m n) {op : Operation}
    (hop : ∀ image, op = .load image → flashCapacity < image.size) :
    StuckAs fault m (n.perform op).machine ∧ (n.perform op).events = [] := by
  have hstuck := h.1.perform hop
  cases op with
  | load image =>
    rw [perform_load_of_error (Flash.load_of_lt (hop image rfl) n.flash)]
    exact ⟨h, rfl⟩
  | step => exact ⟨h.step, h.1.step_still.2.1⟩
  | tick => exact h.run _
  | run budget => exact h.run budget
  | _ => exact ⟨⟨hstuck, h.2.trans ⟨rfl, rfl, rfl, rfl, rfl, rfl, rfl, rfl, rfl⟩⟩, rfl⟩

end StuckAs

/-! ### What is on record is true -/

/-- A fault on record is that of the record under the program counter. -/
def Truthful (m : Machine) : Prop :=
  ∀ fault, m.fault = some fault → m.Stuck fault

namespace Truthful

variable {m : Machine}

theorem of_none (h : m.fault = none) : m.Truthful := by
  intro fault hfault
  rw [h] at hfault
  cases hfault

theorem of_stuck {fault : Fault} (h : m.Stuck fault) : m.Truthful := by
  intro recorded hrecorded
  rw [h.fault_eq] at hrecorded
  cases hrecorded
  exact h

/-- A step that meets no fault leaves the record of faults as it is. -/
theorem fault_step {outcome : Outcome} (h : m.step.outcome = .ok outcome) :
    m.step.machine.fault = m.fault := by
  rcases m.step_cases with ⟨-, hs⟩ | ⟨-, -, hs⟩ | ⟨_, _, -, -, -, hs⟩ | ⟨_, i, length, -, -, -, hs⟩
  · rw [hs]
    rfl
  · rw [hs]
  · rw [hs] at h
    cases h
  · obtain ⟨pc, jumped, hr⟩ := m.retire_eq i length
    obtain ⟨-, -, -, -, hfault, -⟩ := m.execute_frame i
    rw [hs, hr]
    exact hfault

theorem step (h : m.Truthful) : m.step.machine.Truthful := by
  rcases hrecord : m.fault with _ | recorded
  · rcases houtcome : m.step.outcome with fault | outcome
    · exact of_stuck (Stuck.of_step houtcome).1
    · apply of_none
      rw [fault_step houtcome, hrecord]
  · exact of_stuck (h recorded hrecord).step

theorem perform (h : m.Truthful) (op : Operation) : (m.perform op).machine.Truthful := by
  cases op with
  | load image =>
    rcases hload : m.flash.load image with e | flash
    · rw [perform_load_of_error hload]
      exact h
    · rw [perform_load_of_ok hload]
      exact of_none rfl
  | step => exact h.step
  | tick => exact run_invariant (fun _ hm => hm.step) _ h
  | run budget => exact run_invariant (fun _ hm => hm.step) budget h
  | _ =>
    intro fault hfault
    exact (h fault hfault).congr ⟨rfl, rfl, rfl, rfl⟩

theorem performAll (h : m.Truthful) (ops : List Operation) : (m.performAll ops).Truthful :=
  performAll_invariant (fun _ op _ hm => hm.perform op) m h

theorem after (h : m.Truthful) (k : Nat) : (m.after k).Truthful :=
  after_invariant (fun _ hm => hm.step) k h

end Truthful

/-- Whatever a host has done, also after any steps of a batch, a fault on record is what fetching at
    the program counter gives, and no delay is left. Until an image that fits is loaded, every step
    then halts or meets this fault, nothing happens, and all that belongs to the run stands still,
    the fault on record included. -/
theorem fault_describes_record {settings : Settings} {history : List Operation} {k : Nat}
    {fault : Fault}
    (hfault : (((Machine.new settings).performAll history).after k).fault = some fault) :
    let m := ((Machine.new settings).performAll history).after k
    m.delay = 0 ∧ fault.pc = m.pc ∧
      (∃ offset, m.offset? = some offset ∧ offset < flashCapacity ∧
        m.flash.record offset = .error fault.cause) ∧
      ∀ ops : List Operation, (∀ image, .load image ∈ ops → flashCapacity < image.size) →
        (∀ s ∈ m.stepsOfAll ops,
          (s.outcome = .ok .halted ∨ s.outcome = .error fault) ∧ m.Still s.machine) ∧
        m.Still (m.performAll ops) ∧ m.eventsOf ops = [] := by
  intro m
  have hm : m.Truthful := ((Truthful.of_none rfl).performAll history).after k
  have hstuck : m.Stuck fault := hm fault hfault
  refine ⟨hstuck.delay_eq, hstuck.pc_eq.symm, hstuck.record_eq, ?_⟩
  intro ops hops
  have hperform : ∀ n, ∀ op ∈ ops, StuckAs fault m n →
      StuckAs fault m (n.perform op).machine ∧ (n.perform op).events = [] := by
    intro n op hop hn
    apply hn.perform
    rintro image rfl
    exact hops image hop
  have hstart : StuckAs fault m m := ⟨hstuck, .refl m⟩
  obtain ⟨⟨-, hfinal⟩, hevents⟩ :=
    responses_invariant (Q := fun r => r.events = []) hperform m hstart
  refine ⟨?_, hfinal, ?_⟩
  · intro s hs
    obtain ⟨before, ⟨hbefore, hstill⟩, rfl⟩ := stepsOfAll_invariant (fun _ hn => hn.step)
      (fun n op hop hn => (hperform n op hop hn).1) hstart s hs
    obtain ⟨houtcome, -, hstep⟩ := hbefore.step_still
    exact ⟨houtcome, hstill.trans hstep⟩
  · exact List.flatMap_eq_nil_iff.mpr hevents

/-- A machine that has failed on empty flash is switched on again, run, and refused an image that is
    too large. -/
theorem fault_describes_record_blank :
    let m := ((Machine.new {}).performAll [.start]).after 1
    let fault : Fault := ⟨.unknownOpcode 0, origin⟩
    let large : Array UInt8 := Array.replicate (flashCapacity + 1) 0x1A
    let ops : List Operation := [.step, .start, .run 3, .load large, .setRegister 2 9]
    m.fault = some fault ∧ (∀ image, .load image ∈ ops → flashCapacity < image.size) ∧
      m.flash.record 0 = .error fault.cause ∧ m.Still (m.performAll ops) ∧
      m.eventsOf ops = [] := by
  intro m fault large ops
  have hfault : m.fault = some fault := (Stuck.of_step (step_of_blank {})).1.fault_eq
  have hops : ∀ image, .load image ∈ ops → flashCapacity < image.size := by
    simp [ops, large]
  obtain ⟨-, hpc, ⟨offset, hoffset, -, hrecord⟩, hstill⟩ := fault_describes_record hfault
  have hzero : offset = 0 := by
    have horigin : m.offset? = Microboard.offset? origin :=
      congrArg Microboard.offset? hpc.symm
    rw [hoffset] at horigin
    exact Option.some.inj horigin
  obtain ⟨-, hfinal, hevents⟩ := hstill ops hops
  exact ⟨hfault, hops, hzero ▸ hrecord, hfinal, hevents⟩

end Microboard.Machine
