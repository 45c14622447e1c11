import Microboard.Proofs.Flash
import Microboard.Proofs.Instruction.Decoding
import Microboard.Proofs.Machine.Fronts

/-!
# Buffers, counter and samples as a ledger

The buffers and the counter of a machine are a ledger of its steps: `Logged.step`. So is the place
that it has reached in the samples of its analog input: `Sampled.step`. Both are relations between a
machine, steps, and the machine after them, and `run_relates` carries such a relation over a batch.
-/

namespace Microboard

def Event.serial? : Event → Option UInt8
  | .serial byte => some byte
  | _ => none

def Event.spi? : Event → Option UInt8
  | .spi byte => some byte
  | _ => none

def Step.executed? (s : Step) : Option Instruction :=
  match s.outcome with
  | .ok (.executed _ i _) => some i
  | _ => none

/-- What a step that has read the analog input leaves in the register. -/
def Step.reading? (s : Step) : Option UInt8 :=
  match s.executed? with
  | some (.readAdc r) => some (s.machine.registers.get r)
  | _ => none

namespace Panel

theorem turn_quiet (panel : Panel) :
    panel.turn.2.filterMap Event.serial? = [] ∧ panel.turn.2.filterMap Event.spi? = [] := by
  unfold turn
  split
  · exact ⟨rfl, rfl⟩
  · exact ⟨rfl, rfl⟩

/-- Printing puts nothing on the lines. -/
theorem print_quiet (c : UInt8) (panel : Panel) :
    (panel.print c).2.filterMap Event.serial? = [] ∧
      (panel.print c).2.filterMap Event.spi? = [] :=
  turn_quiet (panel.pass c).wrap

end Panel

namespace Machine

/-- A step that executes nothing gives no events and changes at most the delay, the switch and the
    fault; any other one executes an instruction that flash holds as a record. -/
theorem step_idle_or_executes (m : Machine) :
    (m.step.executed? = none ∧ m.step.events = [] ∧
      ∃ delay running fault, m.step.machine = { m with delay, running, fault }) ∨
    ∃ offset i length pc jumped, m.flash.record offset = .ok (i, length) ∧
      m.step = ⟨{ (m.execute i).1 with pc, counter := m.counter + 1 },
        .ok (.executed m.pc i jumped), (m.execute i).2⟩ := by
  rcases m.step_cases with ⟨-, hs⟩ | ⟨-, -, hs⟩ | ⟨_, _, -, -, -, hs⟩ |
    ⟨offset, i, length, -, -, hrecord, hs⟩
  · left
    rw [hs]
    exact ⟨rfl, rfl, m.delay, false, m.fault, rfl⟩
  · left
    rw [hs]
    exact ⟨rfl, rfl, m.delay - 1, m.running, m.fault, rfl⟩
  · left
    rw [hs]
    exact ⟨rfl, rfl, m.delay, false, _, rfl⟩
  · right
    obtain ⟨pc, jumped, hr⟩ := m.retire_eq i length
    exact ⟨offset, i, length, pc, jumped, hrecord, hs.trans hr⟩

/-! ### Relations that steps keep -/

theorem emitted_eq_flatMap (k : Nat) (m : Machine) :
    m.emitted k = (m.taken k).flatMap Step.events := by
  induction k generalizing m with
  | zero => rfl
  | succ k ih =>
    cases hrunning : m.running with
    | false =>
      rw [emitted_of_off hrunning, taken_of_off hrunning]
      rfl
    | true =>
      rw [emitted, taken, hrunning, if_pos rfl, List.flatMap_cons, ih]

/-- All that happens in an operation happens in its steps. -/
theorem perform_events (m : Machine) (op : Operation) :
    (m.perform op).events = (m.stepsOf op).flatMap Step.events := by
  cases op with
  | load image =>
    cases hload : m.flash.load image with
    | ok flash =>
      rw [perform_load_of_ok hload]
      rfl
    | error e =>
      rw [perform_load_of_error hload]
      rfl
  | step => exact (List.append_nil _).symm
  | tick => exact (run_eq _ m).2.1.trans (emitted_eq_flatMap _ m)
  | run budget => exact (run_eq budget m).2.1.trans (emitted_eq_flatMap budget m)
  | _ => rfl

section Relation

variable {R : Machine → List Step → Machine → Prop}
  (hrefl : ∀ m, R m [] m) (hstep : ∀ m, R m [m.step] m.step.machine)
  (happend : ∀ {m n o steps more}, R m steps n → R n more o → R m (steps ++ more) o)
include hrefl hstep happend

theorem taken_relates (k : Nat) (m : Machine) : R m (m.taken k) (m.after k) := by
  have hfronts : R m ((m.fronts k).map step) (m.after k) := by
    refine fronts_relates (R := fun m fronts n => R m (fronts.map step) n) hrefl hstep ?_ k m
    intro m n o fronts more h hmore
    rw [List.map_append]
    exact happend h hmore
  rwa [map_step_fronts] at hfronts

/-- What single steps keep, a batch keeps. -/
theorem run_relates (budget : Nat) (m : Machine) :
    R m (m.taken budget) (m.run budget).machine := by
  rw [(run_eq budget m).1]
  exact taken_relates hrefl hstep happend budget m

end Relation

/-! ### Buffers and counter -/

/-- From `m` to `n` the buffers have grown by the bytes that the steps gave, and the counter by the
    number of those that executed something. -/
structure Logged (m : Machine) (steps : List Step) (n : Machine) : Prop where
  serial_eq : n.serial.toList =
    m.serial.toList ++ (steps.flatMap Step.events).filterMap Event.serial?
  spi_eq : n.spi.toList = m.spi.toList ++ (steps.flatMap Step.events).filterMap Event.spi?
  counter_eq : n.counter = m.counter + UInt64.ofNat (steps.filterMap Step.executed?).length

/-- An instruction buffers the bytes of its events. -/
theorem execute_buffers (i : Instruction) (m : Machine) :
    (m.execute i).1.serial.toList =
        m.serial.toList ++ (m.execute i).2.filterMap Event.serial? ∧
      (m.execute i).1.spi.toList = m.spi.toList ++ (m.execute i).2.filterMap Event.spi? := by
  have hnil (l : List UInt8) : l = l ++ [] := (List.append_nil l).symm
  cases i with
  | loadPin r p =>
    simp only [execute]
    split
    · exact ⟨hnil _, hnil _⟩
    · exact ⟨hnil _, hnil _⟩
  | serialWrite r => exact ⟨Array.toList_push, hnil _⟩
  | spiWrite r => exact ⟨hnil _, Array.toList_push⟩
  | screenPrint r =>
    obtain ⟨hserial, hspi⟩ := m.panel.print_quiet (m.registers.get r)
    simp only [execute]
    rw [hserial, hspi]
    exact ⟨hnil _, hnil _⟩
  | _ => exact ⟨hnil _, hnil _⟩

namespace Logged

theorem of_eq {m n : Machine} {steps : List Step} (hevents : steps.flatMap Step.events = [])
    (hnone : steps.filterMap Step.executed? = []) (hserial : n.serial = m.serial)
    (hspi : n.spi = m.spi) (hcounter : n.counter = m.counter) : Logged m steps n := by
  constructor
  · rw [hevents, hserial]
    exact (List.append_nil _).symm
  · rw [hevents, hspi]
    exact (List.append_nil _).symm
  · rw [hnone, hcounter]
    exact (UInt64.add_zero _).symm

/-- The counter shows its number modulo 2^64. -/
theorem executed_eq {m n : Machine} {steps : List Step} (h : Logged m steps n) :
    n.executed = (m.executed + (steps.filterMap Step.executed?).length) % UInt64.size := by
  rw [executed, h.counter_eq, UInt64.toNat_add, UInt64.toNat_ofNat', Nat.add_mod_mod]
  rfl

theorem refl (m : Machine) : Logged m [] m := of_eq rfl rfl rfl rfl rfl

theorem append {m n o : Machine} {steps more : List Step} (h : Logged m steps n)
    (hmore : Logged n more o) : Logged m (steps ++ more) o := by
  constructor
  · rw [hmore.serial_eq, h.serial_eq, List.flatMap_append, List.filterMap_append, List.append_assoc]
  · rw [hmore.spi_eq, h.spi_eq, List.flatMap_append, List.filterMap_append, List.append_assoc]
  · rw [hmore.counter_eq, h.counter_eq, List.filterMap_append, List.length_append,
      UInt64.ofNat_add, UInt64.add_assoc]

theorem step (m : Machine) : Logged m [m.step] m.step.machine := by
  rcases m.step_idle_or_executes with ⟨hnone, hevents, _, _, _, hmachine⟩ |
    ⟨_, i, _, _, _, -, hs⟩
  · rw [hmachine]
    apply of_eq
    · rw [List.flatMap_singleton, hevents]
    · rw [List.filterMap_cons_none hnone, List.filterMap_nil]
    · rfl
    · rfl
    · rfl
  · obtain ⟨hserial, hspi⟩ := m.execute_buffers i
    rw [hs]
    constructor
    · rw [List.flatMap_singleton]
      exact hserial
    · rw [List.flatMap_singleton]
      exact hspi
    · rfl

/-- Every operation is logged, apart from a load that succeeds. -/
theorem perform {m : Machine} {op : Operation}
    (hop : ∀ image, op = .load image → flashCapacity < image.size) :
    Logged m (m.stepsOf op) (m.perform op).machine := by
  cases op with
  | load image =>
    rw [perform_load_of_error (Flash.load_of_lt (hop image rfl) m.flash)]
    exact refl m
  | step => exact step m
  | tick => exact run_relates refl step append _ m
  | run budget => exact run_relates refl step append budget m
  | _ => exact of_eq rfl rfl rfl rfl rfl

end Logged

/-! ### Samples -/

/-- From `m` to `n` the steps that read the analog input have drawn one sample each, and nothing
    else has drawn any: the readings are those of the samples in turn. -/
structure Sampled (m : Machine) (steps : List Step) (n : Machine) : Prop where
  readings_eq : steps.filterMap Step.reading? =
    (List.range (steps.filterMap Step.reading?).length).map fun k =>
      AnalogInput.reading (m.adc.sample (m.adc.drawn + k))
  adc_eq : n.adc =
    { m.adc with drawn := m.adc.drawn + (steps.filterMap Step.reading?).length }

/-- Only the instruction that reads the analog input draws a sample. -/
theorem execute_adc (i : Instruction) (m : Machine) :
    (∃ r, i = .readAdc r ∧ (m.execute i).1.adc = m.adc.advance) ∨
      ((∀ r, i ≠ .readAdc r) ∧ (m.execute i).1.adc = m.adc) := by
  cases i with
  | readAdc r => exact Or.inl ⟨r, rfl, rfl⟩
  | loadPin r p =>
    right
    refine ⟨fun _ h => Instruction.noConfusion h, ?_⟩
    simp only [execute]
    split
    · rfl
    · rfl
  | _ => exact Or.inr ⟨fun _ h => Instruction.noConfusion h, rfl⟩

theorem reading?_of_none {s : Step} (h : s.executed? = none) : s.reading? = none := by
  rw [Step.reading?, h]

theorem reading?_of_ne {s : Step} {i : Instruction} (h : s.executed? = some i)
    (hne : ∀ r, i ≠ .readAdc r) : s.reading? = none := by
  rw [Step.reading?, h]
  cases i with
  | readAdc r => exact absurd rfl (hne r)
  | _ => rfl

namespace Sampled

theorem of_eq {m n : Machine} {steps : List Step} (hnone : steps.filterMap Step.reading? = [])
    (h : n.adc = m.adc) : Sampled m steps n := by
  constructor
  · rw [hnone]
    rfl
  · rw [hnone]
    exact h

theorem refl (m : Machine) : Sampled m [] m := of_eq rfl rfl

theorem append {m n o : Machine} {steps more : List Step} (h : Sampled m steps n)
    (hmore : Sampled n more o) : Sampled m (steps ++ more) o := by
  constructor
  · have hrest := hmore.readings_eq
    rw [h.adc_eq] at hrest
    simp only [Nat.add_assoc] at hrest
    rw [List.filterMap_append, List.length_append, List.range_add, List.map_append, List.map_map,
      ← h.readings_eq]
    exact congrArg (steps.filterMap Step.reading? ++ ·) hrest
  · rw [hmore.adc_eq, h.adc_eq, List.filterMap_append, List.length_append, Nat.add_assoc]

theorem step (m : Machine) : Sampled m [m.step] m.step.machine := by
  rcases m.step_idle_or_executes with ⟨hnone, -, _, _, _, hmachine⟩ |
    ⟨offset, i, length, _, _, hrecord, hs⟩
  · rw [hmachine]
    apply of_eq
    · rw [List.filterMap_cons_none (reading?_of_none hnone), List.filterMap_nil]
    · rfl
  · rcases m.execute_adc i with ⟨r, rfl, hadc⟩ | ⟨hne, hadc⟩
    · -- Only registers that exist are decoded, so the reading is found where it was stored.
      obtain ⟨-, hdecode⟩ := Flash.record_eq_ok hrecord
      have hlt : r.toNat < registerCount :=
        Instruction.addressable_of_decode hdecode r List.mem_cons_self
      have hreading : (m.execute (.readAdc r)).1.registers.get r = m.adc.next := by
        simp only [execute, Registers.get_set hlt, if_true]
      rw [hs]
      constructor
      · exact congrArg (fun reading => [reading]) hreading
      · exact hadc
    · rw [hs]
      apply of_eq
      · rw [List.filterMap_cons_none (reading?_of_ne rfl hne), List.filterMap_nil]
      · exact hadc

/-- Every operation keeps to the samples, apart from connecting another input. -/
theorem perform {m : Machine} {op : Operation} (hop : ∀ input, op ≠ .connect input) :
    Sampled m (m.stepsOf op) (m.perform op).machine := by
  cases op with
  | load image =>
    cases hload : m.flash.load image with
    | ok flash =>
      rw [perform_load_of_ok hload]
      exact of_eq rfl rfl
    | error e =>
      rw [perform_load_of_error hload]
      exact refl m
  | step => exact step m
  | tick => exact run_relates refl step append _ m
  | run budget => exact run_relates refl step append budget m
  | connect input => exact absurd rfl (hop input)
  | _ => exact of_eq rfl rfl

end Sampled

end Machine

end Microboard
