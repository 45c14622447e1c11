import Microboard.Proofs.Firmware.Repertoire
import Microboard.Proofs.Machine.Fetch
import Microboard.Proofs.Machine.Session

/-!
# What compiled code works on

Compiled code changes the registers, the outcome of comparisons and the panel, and depends on
nothing else. `reaches_straight` says where straight code leads a machine: to its end, with these
changed as by the instructions one after another. How many steps that takes depends on the delays in
the code.
-/

namespace Microboard

open Instruction

structure Working where
  registers : Registers
  flag : Ordering
  panel : Panel

def Machine.working (m : Machine) : Working :=
  ⟨m.registers, m.flag, m.panel⟩

theorem Machine.working_registers (m : Machine) : m.working.registers = m.registers := rfl

theorem Machine.working_flag (m : Machine) : m.working.flag = m.flag := rfl

theorem Machine.working_panel (m : Machine) : m.working.panel = m.panel := rfl

namespace Instruction

/-- The work of an instruction of compiled code. -/
def work (i : Instruction) (w : Working) : Working × List Event :=
  match i with
  | .loadImmediate r value => ({ w with registers := w.registers.set r value }, [])
  | .add r s => ({ w with registers := w.registers.add r s }, [])
  | .subtract r s => ({ w with registers := w.registers.subtract r s }, [])
  | .compare r s => ({ w with flag := w.registers.compare r s }, [])
  | .screenPrint r =>
    let (panel, events) := w.panel.print (w.registers.get r)
    ({ w with panel }, events)
  | .screenClear =>
    let (panel, events) := w.panel.clear
    ({ w with panel }, events)
  | .drawPixel r s => (w, [.pixel (w.registers.get r) (w.registers.get s)])
  | .moveX r =>
    let (panel, events) := w.panel.moveX (w.registers.get r)
    ({ w with panel }, events)
  | .moveY r =>
    let (panel, events) := w.panel.moveY (w.registers.get r)
    ({ w with panel }, events)
  | .jump .. | .delay _ => (w, [])
  | .storePin .. | .loadPin .. | .serialWrite _ | .spiWrite _ | .readAdc _ => (w, [])

def workAll : List Instruction → Working → Working × List Event
  | [], w => (w, [])
  | i :: is, w => ((workAll is (i.work w).1).1, (i.work w).2 ++ (workAll is (i.work w).1).2)

theorem workAll_append (is js : List Instruction) (w : Working) :
    workAll (is ++ js) w =
      ((workAll js (workAll is w).1).1, (workAll is w).2 ++ (workAll js (workAll is w).1).2) := by
  induction is generalizing w with
  | nil => rfl
  | cons i is ih => simp only [List.cons_append, workAll, ih, List.append_assoc]

/-- Carrying out an instruction of compiled code is its work. -/
theorem execute_working {i : Instruction} (hi : i.Compiled) (m : Machine) :
    (m.execute i).1.working = (i.work m.working).1 ∧
      (m.execute i).2 = (i.work m.working).2 := by
  cases i with
  | storePin r p => cases hi
  | loadPin r p => cases hi
  | serialWrite r => cases hi
  | readAdc r => cases hi
  | spiWrite r => cases hi
  | screenPrint r =>
    constructor
    · simp only [Machine.execute, work, Machine.working_registers, Machine.working_flag,
        Machine.working_panel]
      rw [Machine.working]
    · simp only [Machine.execute, work, Machine.working_registers, Machine.working_panel]
  | _ => exact ⟨rfl, rfl⟩

theorem next_of_plain {i : Instruction} (hi : i.Plain) (flag : Ordering) (offset : Nat) :
    i.next flag offset = offset + i.opcode.recordLength := by
  have hnone := hi.2
  cases i with
  | jump condition target => cases hnone
  | _ => rfl

end Instruction

namespace Machine

/-- After so many steps the machine is about to fetch at an offset of its code, works on these, and
    has given these events. -/
structure Reaches (code : List Instruction) (m : Machine) (k offset : Nat) (w : Working)
    (events : List Event) : Prop where
  here : (m.after k).At code offset
  working_eq : (m.after k).working = w
  emitted_eq : m.emitted k = events

namespace Reaches

variable {code : List Instruction} {m : Machine} {k l offset next : Nat} {w v : Working}
  {events more : List Event}

theorem refl (h : m.At code offset) : Reaches code m 0 offset m.working [] :=
  ⟨h, rfl, rfl⟩

theorem trans (h : Reaches code m k offset w events)
    (hnext : Reaches code (m.after k) l next v more) :
    Reaches code m (k + l) next v (events ++ more) := by
  refine ⟨?_, ?_, ?_⟩
  · rw [after_add]
    exact hnext.here
  · rw [after_add]
    exact hnext.working_eq
  · rw [emitted_add, h.emitted_eq, hnext.emitted_eq]

theorem of_step (h : Reaches code m.step.machine k offset w events) :
    Reaches code m (k + 1) offset w (m.step.events ++ events) := by
  refine ⟨h.here, h.working_eq, ?_⟩
  rw [emitted, h.emitted_eq]

end Reaches

variable {code : List Instruction} {m : Machine} {offset : Nat}

/-- The cycles of a delay pass without a trace. -/
theorem reaches_ready (hholds : m.flash.Holds code) (hrunning : m.running = true)
    (hfault : m.fault = none) (hpc : m.pc = addressOf offset) :
    ∃ k, Reaches code m k offset m.working [] := by
  induction hcycles : m.delay.toNat generalizing m with
  | zero =>
    have hdelay : m.delay = 0 := UInt16.toNat_inj.mp hcycles
    exact ⟨0, Reaches.refl ⟨hholds, hrunning, hfault, fun _ => hdelay, hpc⟩⟩
  | succ cycles ih =>
    by_cases hlt : offset < flashCapacity
    · have hlive : m.live? = some offset := live_of_running hrunning hpc hlt
      have hdelay : m.delay ≠ 0 := by
        intro hzero
        rw [hzero] at hcycles
        cases hcycles
      have hstep := step_of_delay hlive hdelay
      have hfewer : (m.delay - 1).toNat = cycles := by
        have hone := toNat_sub_one hdelay
        omega
      have hrest : ∃ k, Reaches code m.step.machine k offset m.working [] := by
        rw [hstep]
        exact ih hholds hrunning hfault hpc hfewer
      obtain ⟨k, hreaches⟩ := hrest
      have hevents : m.step.events = [] := by rw [hstep]
      refine ⟨k + 1, ?_⟩
      have h := hreaches.of_step
      rwa [hevents] at h
    · exact ⟨0, Reaches.refl ⟨hholds, hrunning, hfault, fun h => absurd h hlt, hpc⟩⟩

/-- An instruction that is no jump leads behind itself. -/
theorem At.reaches_plain (h : m.At code offset) {i : Instruction} (hstands : Stands code offset [i])
    (hi : i.Plain) :
    ∃ k, 1 ≤ k ∧ Reaches code m k (offset + i.opcode.recordLength) (i.work m.working).1
      (i.work m.working).2 := by
  have hle := hstands.le
  have hfits := h.holds.fits
  have hpos := recordLength_pos i.opcode
  rw [size_cons, size_nil] at hle
  obtain ⟨before, behind, hcode, rfl⟩ := hstands
  rw [List.append_assoc, List.singleton_append] at hcode
  obtain ⟨hworking, hevents⟩ := execute_working hi.1 m
  obtain ⟨-, hflash, -, hrunning, hfault, -, -⟩ := m.execute_frame i
  have hstep := (h.step_eq hcode (by omega) hi.1.addressable).trans (retire_canonical h.pc_eq i)
  have hrest : ∃ k, Reaches code m.step.machine k (size before + i.opcode.recordLength)
      m.step.machine.working [] := by
    apply reaches_ready
    · rw [hstep]
      show (m.execute i).1.flash.Holds code
      rw [hflash]
      exact h.holds
    · rw [hstep]
      exact hrunning.trans h.running_eq
    · rw [hstep]
      exact hfault.trans h.fault_eq
    · rw [hstep, next_of_plain hi]
  obtain ⟨k, hreaches⟩ := hrest
  have hmachine : m.step.machine.working = (i.work m.working).1 := by
    rw [hstep]
    exact hworking
  have hgiven : m.step.events = (i.work m.working).2 := by
    rw [hstep]
    exact hevents
  have hall := hreaches.of_step
  rw [hmachine, hgiven, List.append_nil] at hall
  exact ⟨k + 1, Nat.le_add_left 1 k, hall⟩

/-- A jump leads to its target if its condition holds, and behind itself if not. -/
theorem At.reaches_jump (h : m.At code offset) {condition : Condition} {target : UInt8}
    (hstands : Stands code offset [.jump condition target]) :
    Reaches code m 1 (if condition.holds m.flag then target.toNat else offset + Jump.size)
      m.working [] := by
  have hle := hstands.le
  have hfits := h.holds.fits
  have hlt : offset < flashCapacity := by
    have hpos := recordLength_pos (.jump condition)
    rw [size_cons, size_nil] at hle
    have hrecord : (Instruction.jump condition target).opcode = .jump condition := rfl
    rw [hrecord] at hle
    omega
  obtain ⟨before, behind, hcode, rfl⟩ := hstands
  rw [List.append_assoc, List.singleton_append] at hcode
  have hi : (Instruction.jump condition target).Addressable := by
    intro r hr
    cases hr
  have hstep := (h.step_eq hcode hlt hi).trans (retire_canonical h.pc_eq _)
  have hnext : (Instruction.jump condition target).next m.flag (size before) =
      if condition.holds m.flag then target.toNat else size before + Jump.size := by
    by_cases hholds : condition.holds m.flag = true
    · simp only [Instruction.next, destination?, hholds, if_true]
    · simp only [Instruction.next, destination?, hholds, Bool.false_eq_true, if_false]
      rfl
  refine ⟨?_, ?_, ?_⟩
  · show m.step.machine.At code _
    rw [hstep]
    exact ⟨h.holds, h.running_eq, h.fault_eq, fun _ => h.ready hlt, by rw [hnext]⟩
  · show m.step.machine.working = _
    rw [hstep]
    rfl
  · show m.step.events ++ [] = []
    rw [hstep]
    rfl

theorem At.reaches_straight {is : List Instruction} (hplain : ∀ i ∈ is, i.Plain) :
    ∀ {m : Machine} {offset : Nat}, m.At code offset → Stands code offset is →
      ∃ k, is.length ≤ k ∧ Reaches code m k (offset + size is) (workAll is m.working).1
        (workAll is m.working).2 := by
  induction is with
  | nil =>
    intro m offset h _
    exact ⟨0, Nat.le_refl 0, Reaches.refl h⟩
  | cons i is ih =>
    intro m offset h hstands
    rw [← List.singleton_append] at hstands
    obtain ⟨k, hk, hfirst⟩ := h.reaches_plain hstands.left (hplain i List.mem_cons_self)
    have hright : Stands code (offset + i.opcode.recordLength) is := hstands.right
    obtain ⟨l, hl, hrest⟩ :=
      ih (fun j hj => hplain j (List.mem_cons_of_mem i hj)) hfirst.here hright
    refine ⟨k + l, ?_, ?_⟩
    · rw [List.length_cons]
      omega
    · rw [hfirst.working_eq, Nat.add_assoc] at hrest
      exact hfirst.trans hrest

end Machine

end Microboard
