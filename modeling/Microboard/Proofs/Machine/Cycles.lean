import Mathlib.Algebra.GroupWithZero.Nat
import Microboard.Proofs.Machine.Ledger

/-!
# How long code takes

An instruction takes one step, and the cycles of a delay take another step each: a step that `Works`
does one or the other. The delay counter keeps the account of the cycles: those that are set and
those that have passed balance over any steps, `Spent.step`.
-/

namespace Microboard

/-! ### Steps that do something -/

namespace Step

/-- How many cycles of a delay are left behind a step that has passed one of them. -/
def remaining? (s : Step) : Option UInt16 :=
  match s.outcome with
  | .ok (.delayed remaining) => some remaining
  | _ => none

/-- A step executes an instruction, or passes a cycle of a delay. -/
def Works (s : Step) : Prop :=
  s.executed?.isSome ∨ s.remaining?.isSome

theorem executed?_of_ok {s : Step} {pc : UInt32} {i : Instruction} {jumped : Bool}
    (h : s.outcome = .ok (.executed pc i jumped)) :
    s.executed? = some i ∧ s.remaining? = none := by
  simp only [executed?, remaining?, h, and_self]

theorem remaining?_of_ok {s : Step} {remaining : UInt16}
    (h : s.outcome = .ok (.delayed remaining)) :
    s.executed? = none ∧ s.remaining? = some remaining := by
  simp only [executed?, remaining?, h, and_self]

theorem idle_of_halted {s : Step} (h : s.outcome = .ok .halted) :
    s.executed? = none ∧ s.remaining? = none := by
  simp only [executed?, remaining?, h, and_self]

theorem not_works {s : Step} (hexecuted : s.executed? = none) (hremaining : s.remaining? = none) :
    ¬s.Works := by
  simp [Works, hexecuted, hremaining]

theorem Works.cases {s : Step} (h : s.Works) :
    (∃ i, s.executed? = some i ∧ s.remaining? = none) ∨
      ∃ remaining, s.executed? = none ∧ s.remaining? = some remaining := by
  rcases houtcome : s.outcome with fault | (_ | remaining | ⟨pc, i, jumped⟩)
  · simp [Works, executed?, remaining?, houtcome] at h
  · simp [Works, executed?, remaining?, houtcome] at h
  · exact Or.inr ⟨remaining, remaining?_of_ok houtcome⟩
  · exact Or.inl ⟨i, executed?_of_ok houtcome⟩

theorem length_of_works {steps : List Step} (h : ∀ s ∈ steps, s.Works) :
    steps.length =
      (steps.filterMap executed?).length + (steps.filterMap remaining?).length := by
  induction steps with
  | nil => rfl
  | cons s steps ih =>
    have hrest := ih fun t ht => h t (List.mem_cons_of_mem s ht)
    rcases (h s List.mem_cons_self).cases with ⟨i, hexecuted, hnone⟩ | ⟨remaining, hnone, hpassed⟩
    · rw [List.filterMap_cons_some hexecuted, List.filterMap_cons_none hnone, List.length_cons,
        List.length_cons, hrest]
      omega
    · rw [List.filterMap_cons_none hnone, List.filterMap_cons_some hpassed, List.length_cons,
        List.length_cons, hrest]
      omega

end Step

namespace Instruction

/-- The cycles that an instruction makes the machine wait. -/
def cycles : Instruction → Nat
  | .delay cycles => cycles.toNat
  | _ => 0

/-- How many steps code takes if nothing of it is skipped. -/
def duration (code : List Instruction) : Nat :=
  code.length + (code.map cycles).sum

theorem duration_cons (i : Instruction) (code : List Instruction) :
    duration (i :: code) = 1 + i.cycles + duration code := by
  simp only [duration, List.length_cons, List.map_cons, List.sum_cons]
  omega

theorem duration_append (before behind : List Instruction) :
    duration (before ++ behind) = duration before + duration behind := by
  simp only [duration, List.length_append, List.map_append, List.sum_append]
  omega

end Instruction

namespace Machine

theorem delay_execute {m : Machine} (hdelay : m.delay = 0) (i : Instruction) :
    (m.execute i).1.delay.toNat = i.cycles := by
  have hzero : m.delay.toNat = 0 := by rw [hdelay]; rfl
  cases i with
  | delay cycles => rfl
  | loadPin r p =>
    simp only [execute]
    split <;> exact hzero
  | screenPrint r =>
    simp only [execute]
    exact hzero
  | _ => exact hzero

/-- From `m` to `n` the steps have passed the cycles that were left, and those that the executed
    instructions have set, apart from the ones that are left now. -/
def Spent (m : Machine) (steps : List Step) (n : Machine) : Prop :=
  n.delay.toNat + (steps.filterMap Step.remaining?).length =
    m.delay.toNat + ((steps.filterMap Step.executed?).map Instruction.cycles).sum

namespace Spent

theorem refl (m : Machine) : Spent m [] m := rfl

theorem append {m n o : Machine} {steps more : List Step} (h : Spent m steps n)
    (hmore : Spent n more o) : Spent m (steps ++ more) o := by
  unfold Spent at *
  rw [List.filterMap_append, List.filterMap_append, List.length_append, List.map_append,
    List.sum_append]
  omega

theorem step (m : Machine) : Spent m [m.step] m.step.machine := by
  rcases m.step_cases with ⟨-, hs⟩ | ⟨-, hdelay, hs⟩ | ⟨_, _, -, -, -, hs⟩ |
    ⟨_, i, length, -, hdelay, -, hs⟩
  · rw [hs]
    rfl
  · have hone := toNat_sub_one hdelay
    rw [hs]
    exact hone
  · rw [hs]
    rfl
  · obtain ⟨pc, jumped, hr⟩ := m.retire_eq i length
    have hset := delay_execute hdelay i
    rw [hs, hr]
    show (m.execute i).1.delay.toNat + 0 = m.delay.toNat + (i.cycles + 0)
    rw [hset, hdelay, UInt16.toNat_zero]
    omega

theorem run (budget : Nat) (m : Machine) :
    Spent m (m.taken budget) (m.run budget).machine :=
  run_relates refl step append budget m

end Spent

end Machine

end Microboard
