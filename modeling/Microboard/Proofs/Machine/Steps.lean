import Microboard.Machine.Operation

/-!
# Steps and what they leave alone

`step_cases` says once everything that a step can do. From it follows what no step ever changes,
and `run_invariant` and `performAll_invariant` carry a property that every step keeps over batches
and over whole sessions with a host.
-/

namespace Microboard

namespace Panel

theorem geometry_pass (c : UInt8) (panel : Panel) :
    (panel.pass c).geometry = panel.geometry := by
  unfold pass
  split <;> rfl

theorem geometry_wrap (panel : Panel) : panel.wrap.geometry = panel.geometry := by
  unfold wrap
  split <;> rfl

theorem geometry_turn (panel : Panel) : panel.turn.1.geometry = panel.geometry := by
  unfold turn
  split <;> rfl

theorem geometry_print (c : UInt8) (panel : Panel) :
    (panel.print c).1.geometry = panel.geometry := by
  show (panel.pass c).wrap.turn.1.geometry = panel.geometry
  rw [geometry_turn, geometry_wrap, geometry_pass]

end Panel

namespace Machine

/-! ### Carrying out an instruction -/

/-- An instruction leaves alone the settings, the flash, the program counter, the running flag, the
    fault, the counter and the geometry of the panel. -/
theorem execute_frame (i : Instruction) (m : Machine) :
    (m.execute i).1.settings = m.settings ∧ (m.execute i).1.flash = m.flash ∧
      (m.execute i).1.pc = m.pc ∧ (m.execute i).1.running = m.running ∧
      (m.execute i).1.fault = m.fault ∧ (m.execute i).1.counter = m.counter ∧
      (m.execute i).1.panel.geometry = m.panel.geometry := by
  cases i with
  | loadPin r p =>
    simp only [execute]
    split <;> exact ⟨rfl, rfl, rfl, rfl, rfl, rfl, rfl⟩
  | screenPrint r =>
    simp only [execute, Panel.geometry_print, and_self]
  | _ => exact ⟨rfl, rfl, rfl, rfl, rfl, rfl, rfl⟩

theorem retire_eq (i : Instruction) (length : UInt8) (m : Machine) :
    ∃ pc jumped, m.retire i length =
      ⟨{ (m.execute i).1 with pc, counter := m.counter + 1 },
        .ok (.executed m.pc i jumped), (m.execute i).2⟩ := by
  simp only [retire]
  split
  · exact ⟨_, true, rfl⟩
  · exact ⟨_, false, rfl⟩

theorem retire_outcome (i : Instruction) (length : UInt8) (m : Machine) :
    (m.retire i length).outcome = .ok (.executed m.pc i (i.destination? m.flag).isSome) := by
  simp only [retire]
  split
  · rename_i target hdestination
    rw [hdestination, Option.isSome_some]
  · rename_i hdestination
    rw [hdestination, Option.isSome_none]

/-! ### One step -/

theorem live?_eq_some_iff {m : Machine} {offset : Nat} :
    m.live? = some offset ↔
      m.running = true ∧ m.offset? = some offset ∧ offset < flashCapacity := by
  rw [live?]
  split
  · rename_i hrunning
    rw [Option.filter_eq_some_iff, decide_eq_true_eq]
    exact ⟨fun h => ⟨hrunning, h⟩, fun h => h.2⟩
  · rename_i hrunning
    constructor
    · intro h
      cases h
    · intro h
      exact absurd h.1 hrunning

theorem toNat_sub_one {n : UInt16} (h : n ≠ 0) : (n - 1).toNat + 1 = n.toNat := by
  have hpos : n.toNat ≠ 0 := fun hzero => h (UInt16.toNat_inj.mp hzero)
  have hone : (1 : UInt16) ≤ n := by
    rw [UInt16.le_iff_toNat_le]
    exact Nat.one_le_iff_ne_zero.mpr hpos
  rw [UInt16.toNat_sub_of_le _ _ hone]
  exact Nat.succ_pred hpos

theorem step_of_delay {m : Machine} {offset : Nat} (hlive : m.live? = some offset)
    (hdelay : m.delay ≠ 0) :
    m.step = ⟨{ m with delay := m.delay - 1 }, .ok (.delayed (m.delay - 1)), []⟩ := by
  simp only [step, hlive, ne_eq, hdelay, not_false_eq_true, if_true]

theorem step_of_error {m : Machine} {offset : Nat} {cause : RecordError}
    (hlive : m.live? = some offset) (hdelay : m.delay = 0)
    (hrecord : m.flash.record offset = .error cause) :
    m.step = ⟨{ m with running := false, fault := some ⟨cause, m.pc⟩ },
      .error ⟨cause, m.pc⟩, []⟩ := by
  simp [step, hlive, hdelay, hrecord]

theorem step_of_ok {m : Machine} {offset : Nat} {i : Instruction} {length : UInt8}
    (hlive : m.live? = some offset) (hdelay : m.delay = 0)
    (hrecord : m.flash.record offset = .ok (i, length)) : m.step = m.retire i length := by
  simp [step, hlive, hdelay, hrecord]

/-- What a step does: it halts, passes a cycle of a delay, faults, or executes a record. -/
theorem step_cases (m : Machine) :
    (m.live? = none ∧ m.step = ⟨m.stop, .ok .halted, []⟩) ∨
    (m.live?.isSome ∧ m.delay ≠ 0 ∧
      m.step = ⟨{ m with delay := m.delay - 1 }, .ok (.delayed (m.delay - 1)), []⟩) ∨
    (∃ offset cause, m.live? = some offset ∧ m.delay = 0 ∧ m.flash.record offset = .error cause ∧
      m.step = ⟨{ m with running := false, fault := some ⟨cause, m.pc⟩ },
        .error ⟨cause, m.pc⟩, []⟩) ∨
    (∃ offset i length, m.live? = some offset ∧ m.delay = 0 ∧
      m.flash.record offset = .ok (i, length) ∧ m.step = m.retire i length) := by
  rcases hlive : m.live? with _ | offset
  · left
    exact ⟨rfl, by simp only [step, hlive]⟩
  · right
    by_cases hdelay : m.delay = 0
    · right
      rcases hrecord : m.flash.record offset with cause | ⟨i, length⟩
      · left
        exact ⟨offset, cause, rfl, hdelay, hrecord, step_of_error hlive hdelay hrecord⟩
      · right
        exact ⟨offset, i, length, rfl, hdelay, hrecord, step_of_ok hlive hdelay hrecord⟩
    · left
      exact ⟨rfl, hdelay, step_of_delay hlive hdelay⟩

/-- An instruction that a step has executed is the record at the program counter. -/
theorem retire_of_executed {m : Machine} {pc : UInt32} {i : Instruction} {jumped : Bool}
    (h : m.step.outcome = .ok (.executed pc i jumped)) :
    ∃ offset length, m.live? = some offset ∧ m.flash.record offset = .ok (i, length) ∧
      m.step = m.retire i length ∧ pc = m.pc ∧ jumped = (i.destination? m.flag).isSome := by
  rcases m.step_cases with ⟨-, hs⟩ | ⟨-, -, hs⟩ | ⟨_, _, -, -, -, hs⟩ |
    ⟨offset, j, length, hlive, -, hrecord, hs⟩
  · rw [hs] at h
    cases h
  · rw [hs] at h
    cases h
  · rw [hs] at h
    cases h
  · rw [hs, retire_outcome] at h
    cases h
    exact ⟨offset, length, hlive, hrecord, hs, rfl, rfl⟩

/-- A step that fails could not read the record at the program counter. -/
theorem step_eq_of_fault {m : Machine} {fault : Fault} (h : m.step.outcome = .error fault) :
    fault.pc = m.pc ∧ m.delay = 0 ∧
      (∃ offset, m.live? = some offset ∧ m.flash.record offset = .error fault.cause) ∧
      m.step = ⟨{ m with running := false, fault := some fault }, .error fault, []⟩ := by
  rcases m.step_cases with ⟨-, hs⟩ | ⟨-, -, hs⟩ | ⟨offset, cause, hlive, hdelay, hrecord, hs⟩ |
    ⟨_, i, length, -, -, -, hs⟩
  · rw [hs] at h
    cases h
  · rw [hs] at h
    cases h
  · rw [hs] at h
    cases h
    exact ⟨rfl, hdelay, ⟨offset, hlive, hrecord⟩, hs⟩
  · rw [hs, retire_outcome] at h
    cases h

/-- No step changes the settings, the flash or the geometry of the panel. -/
theorem step_frame (m : Machine) :
    m.step.machine.settings = m.settings ∧ m.step.machine.flash = m.flash ∧
      m.step.machine.panel.geometry = m.panel.geometry := by
  rcases m.step_cases with ⟨-, hs⟩ | ⟨-, -, hs⟩ | ⟨_, _, -, -, -, hs⟩ | ⟨_, i, length, -, -, -, hs⟩
  · rw [hs]
    exact ⟨rfl, rfl, rfl⟩
  · rw [hs]
    exact ⟨rfl, rfl, rfl⟩
  · rw [hs]
    exact ⟨rfl, rfl, rfl⟩
  · obtain ⟨pc, jumped, hr⟩ := m.retire_eq i length
    obtain ⟨hsettings, hflash, -, -, -, -, hgeometry⟩ := m.execute_frame i
    rw [hs, hr]
    exact ⟨hsettings, hflash, hgeometry⟩

/-! ### Batches -/

theorem resume_invariant {P : Machine → Prop} (hstep : ∀ m, P m → P m.step.machine)
    (budget : Nat) : ∀ (steps : Nat) (events : Array Event) (m : Machine), P m →
      P (m.resume budget steps events).machine := by
  induction budget with
  | zero =>
    intro steps events m h
    exact h
  | succ budget ih =>
    intro steps events m h
    have hnext := hstep m h
    simp only [resume]
    split
    · split <;> rename_i hs
      · rw [hs] at hnext
        exact ih _ _ _ hnext
      · rw [hs] at hnext
        exact hnext
    · exact h

theorem run_invariant {P : Machine → Prop} (hstep : ∀ m, P m → P m.step.machine)
    (budget : Nat) {m : Machine} (h : P m) : P (m.run budget).machine :=
  resume_invariant hstep budget 0 #[] m h

/-! ### Sessions with a host -/

theorem load_eq_ok {m loaded : Machine} {image : Array UInt8} :
    m.load image = .ok loaded ↔
      ∃ flash, m.flash.load image = .ok flash ∧ m.withFlash flash = loaded := by
  rw [load]
  cases m.flash.load image with
  | error e => simp [Except.map]
  | ok flash => simp [Except.map]

theorem perform_load_of_ok {m : Machine} {image : Array UInt8} {flash : Flash}
    (h : m.flash.load image = .ok flash) :
    m.perform (.load image) = ⟨m.withFlash flash, .done, []⟩ := by
  simp only [perform, load, h, Except.map]

theorem perform_load_of_error {m : Machine} {image : Array UInt8} {e : CapacityExceeded}
    (h : m.flash.load image = .error e) :
    m.perform (.load image) = ⟨m, .rejected e, []⟩ := by
  simp only [perform, load, h, Except.map]

/-- What every operation of a session keeps, the session keeps. -/
theorem performAll_invariant {P : Machine → Prop} {ops : List Operation}
    (hperform : ∀ m, ∀ op ∈ ops, P m → P (m.perform op).machine) :
    ∀ m : Machine, P m → P (m.performAll ops) := by
  induction ops with
  | nil =>
    intro m h
    exact h
  | cons op ops ih =>
    intro m h
    have hnext := hperform m op List.mem_cons_self h
    exact ih (fun n o ho => hperform n o (List.mem_cons_of_mem op ho)) _ hnext

end Machine

end Microboard
