import Microboard.Proofs.Machine.Bounds
import Microboard.Proofs.Workbench.Ledger

/-!
# The last comparison

Only a comparison writes the outcome that jumps read, and only a load takes it back. So in front of
every step at a workbench it is that of the last comparison since the last load that succeeded,
whatever has become of the registers since: `flag_is_last_comparison`.
-/

namespace Microboard

/-- Registers compare like the numbers that they hold. -/
theorem Registers.compare_eq (registers : Registers) (left right : UInt8) :
    registers.compare left right =
      Ord.compare (registers.get left).toNat (registers.get right).toNat := by
  show compareOfLessAndEq (registers.get left) (registers.get right) =
    compareOfLessAndEq (registers.get left).toNat (registers.get right).toNat
  simp only [compareOfLessAndEq, UInt8.lt_iff_toNat_lt, UInt8.toNat_inj]

namespace Machine

/-! ### Comparisons of a machine -/

/-- How the two registers compare, as unsigned numbers, that the next step of the machine compares;
    nothing if it executes no comparison. -/
def compared? (m : Machine) : Option Ordering :=
  match m.step.executed? with
  | some (.compare left right) =>
    some (compare (m.registers.get left).toNat (m.registers.get right).toNat)
  | _ => none

/-- How the last comparison comes out in the steps of these machines; equal if there is none. -/
def lastCompared (fronts : List Machine) : Ordering :=
  (fronts.filterMap compared?).getLast?.getD .eq

/-- Only a comparison writes the outcome. -/
theorem execute_flag (i : Instruction) (m : Machine) :
    (∃ left right, i = .compare left right ∧
        (m.execute i).1.flag = m.registers.compare left right) ∨
      ((∀ left right, i ≠ .compare left right) ∧ (m.execute i).1.flag = m.flag) := by
  cases i with
  | compare left right => exact Or.inl ⟨left, right, rfl, rfl⟩
  | loadPin r p =>
    right
    refine ⟨fun _ _ h => Instruction.noConfusion h, ?_⟩
    simp only [execute]
    split
    · rfl
    · rfl
  | _ => exact Or.inr ⟨fun _ _ h => Instruction.noConfusion h, rfl⟩

theorem compared?_of_ne {m : Machine} {i : Instruction} (h : m.step.executed? = some i)
    (hne : ∀ left right, i ≠ .compare left right) : m.compared? = none := by
  rw [compared?, h]
  cases i with
  | compare left right => exact absurd rfl (hne left right)
  | _ => rfl

theorem compared?_of_none {m : Machine} (h : m.step.executed? = none) : m.compared? = none := by
  rw [compared?, h]

/-- From `m` to `n` the outcome has become that of the last comparison in these steps, if there is
    any. -/
def Compares (m : Machine) (fronts : List Machine) (n : Machine) : Prop :=
  n.flag = (fronts.filterMap compared?).getLast?.getD m.flag

namespace Compares

theorem refl (m : Machine) : Compares m [] m := rfl

theorem append {m n o : Machine} {fronts more : List Machine} (h : Compares m fronts n)
    (hmore : Compares n more o) : Compares m (fronts ++ more) o := by
  unfold Compares at *
  rw [hmore, h, List.filterMap_append, List.getLast?_append, Option.getD_or]

theorem step (m : Machine) : Compares m [m] m.step.machine := by
  rcases m.step_idle_or_executes with ⟨hnone, -, _, _, _, hmachine⟩ | ⟨_, i, _, _, _, -, hs⟩
  · rw [Compares, List.filterMap_cons_none (compared?_of_none hnone), hmachine]
    rfl
  · have hexecuted : m.step.executed? = some i := by
      rw [hs]
      rfl
    rcases m.execute_flag i with ⟨left, right, rfl, hflag⟩ | ⟨hne, hflag⟩
    · have hcompared : m.compared? = some (m.registers.compare left right) := by
        rw [compared?, hexecuted, Registers.compare_eq]
      rw [Compares, List.filterMap_cons_some hcompared, hs]
      exact hflag
    · rw [Compares, List.filterMap_cons_none (compared?_of_ne hexecuted hne), hs]
      exact hflag

/-- A load that is rejected compares nothing, like all that the host does itself. -/
theorem perform {m : Machine} {op : Operation}
    (hop : ∀ image, op = .load image → flashCapacity < image.size) :
    Compares m (m.frontsOf op) (m.perform op).machine := by
  cases op with
  | load image =>
    rw [perform_load_of_error (Flash.load_of_lt (hop image rfl) m.flash)]
    exact refl m
  | step => exact step m
  | tick => exact run_fronts_relates refl step append _ m
  | run budget => exact run_fronts_relates refl step append budget m
  | _ => exact rfl

theorem flag_eq {m n : Machine} {before fronts : List Machine} (h : Compares m fronts n)
    (hm : m.flag = lastCompared before) : n.flag = lastCompared (before ++ fronts) := by
  rw [h, hm, lastCompared, lastCompared, List.filterMap_append, List.getLast?_append,
    Option.getD_or]

end Compares

/-- A jump that a step executes leads to its target if the outcome satisfies its condition, and
    behind its record if not. -/
theorem step_of_jump {m : Machine} {pc : UInt32} {condition : Condition} {target : UInt8}
    {jumped : Bool} (h : m.step.outcome = .ok (.executed pc (.jump condition target) jumped)) :
    jumped = condition.holds m.flag ∧
      if condition.holds m.flag then m.step.machine.pc = origin + target.toUInt32
      else ∃ offset length, m.offset? = some offset ∧
        m.flash.read? (offset + 1) = some length ∧
        m.step.machine.pc.toNat = m.pc.toNat + (Opcode.headerLength + length.toNat) := by
  obtain ⟨offset, length, hlive, hrecord, hstep, -, hjumped⟩ := retire_of_executed h
  obtain ⟨-, hoffset, hlt⟩ := live?_eq_some_iff.mp hlive
  obtain ⟨hlength, -⟩ := Flash.record_eq_ok hrecord
  rw [hstep]
  rcases hholds : condition.holds m.flag with _ | _
  · have hnone : (Instruction.jump condition target).destination? m.flag = none := by
      simp only [Instruction.destination?, hholds, Bool.false_eq_true, if_false]
    rw [hnone] at hjumped
    refine ⟨hjumped, offset, length, hoffset, hlength, ?_⟩
    rw [← toNat_pc_add (toNat_pc_of_offset hoffset) hlt length]
    simp only [retire, hnone]
  · have hsome : (Instruction.jump condition target).destination? m.flag = some target := by
      simp only [Instruction.destination?, hholds, if_true]
    rw [hsome] at hjumped
    refine ⟨hjumped, ?_⟩
    simp only [retire, hsome, if_true]

end Machine

namespace Workbench

open Machine (lastCompared Compares)

/-! ### Comparisons at a workbench -/

instance (w : Workbench) (op : Operation) : Decidable (w.Loads op) :=
  inferInstanceAs (Decidable (∃ image ∈ w.image? op, image.size ≤ flashCapacity))

def frontsOf (w : Workbench) : Operation → List Machine
  | .machine op => w.machine.frontsOf op
  | _ => []

/-- The machines in front of the steps since the last load that has succeeded, if these were the
    machines in front of such steps before the operations. -/
def sinceLoad (w : Workbench) (fronts : List Machine) : List Operation → List Machine
  | [] => fronts
  | op :: ops =>
    (w.perform op).bench.sinceLoad (if w.Loads op then [] else fronts ++ w.frontsOf op) ops

theorem compares_perform {w : Workbench} {op : Operation} (h : ¬w.Loads op) :
    Compares w.machine (w.frontsOf op) (w.perform op).bench.machine := by
  cases op with
  | compile text => exact rfl
  | load image =>
    rw [perform, load_of_lt (lt_of_not_loads h rfl)]
    exact .refl w.machine
  | loadCompiled =>
    rw [perform]
    cases hfirmware : w.firmware with
    | none =>
      rw [loadCompiled_of_none hfirmware]
      exact .refl w.machine
    | some image =>
      rw [loadCompiled_of_some hfirmware, load_of_lt (lt_of_not_loads h hfirmware)]
      exact .refl w.machine
  | machine op =>
    apply Compares.perform
    intro image hop
    exact lt_of_not_loads h (congrArg (fun op => w.image? (.machine op)) hop)

theorem flag_performAll {w : Workbench} {fronts : List Machine}
    (h : w.machine.flag = lastCompared fronts) (ops : List Operation) :
    (w.performAll ops).machine.flag = lastCompared (w.sinceLoad fronts ops) := by
  induction ops generalizing w fronts with
  | nil => exact h
  | cons op ops ih =>
    rw [performAll_cons, sinceLoad]
    apply ih
    by_cases hloads : w.Loads op
    · obtain ⟨flash, hflash⟩ := hloads.machine_eq
      rw [if_pos hloads, hflash]
      rfl
    · rw [if_neg hloads]
      exact (compares_perform hloads).flag_eq h

/-- Whatever has been done at a workbench, also after any steps of a batch: the outcome that jumps
    read is that of the last comparison executed since the last load that has succeeded, of the
    registers as they were then, and equal if there was none. The next step, if it executes a jump,
    leads to its target if this outcome satisfies the condition of the jump, and otherwise behind
    the record of the jump, as its length byte tells. -/
theorem flag_is_last_comparison (settings : Settings) (ops : List Operation) (k : Nat) :
    let start := Workbench.new settings
    let w := start.performAll ops
    let m := w.machine.after k
    let flag := lastCompared (start.sinceLoad [] ops ++ w.machine.fronts k)
    m.flag = flag ∧
      ∀ pc condition target jumped,
        m.step.outcome = .ok (.executed pc (.jump condition target) jumped) →
        jumped = condition.holds flag ∧
          if condition.holds flag then m.step.machine.pc = origin + target.toUInt32
          else ∃ offset length, m.offset? = some offset ∧
            m.flash.read? (offset + 1) = some length ∧
            m.step.machine.pc.toNat = m.pc.toNat + (Opcode.headerLength + length.toNat) := by
  intro start w m flag
  have hstart : w.machine.flag = lastCompared (start.sinceLoad [] ops) := flag_performAll rfl ops
  have hafter : Compares w.machine (w.machine.fronts k) m :=
    Machine.fronts_relates Compares.refl Compares.step Compares.append k w.machine
  have hflag : m.flag = flag := hafter.flag_eq hstart
  refine ⟨hflag, ?_⟩
  intro pc condition target jumped h
  rw [← hflag]
  exact Machine.step_of_jump h

end Workbench

end Microboard
