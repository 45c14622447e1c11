import Microboard.Proofs.Machine.Session

/-!
# In front of the steps

What a step does is decided by the machine in front of it. A relation between a machine, the
machines in front of some steps, and the machine behind these steps holds of every batch if it holds
of single steps: `run_fronts_relates`.
-/

namespace Microboard.Machine

/-- The machines in front of the steps that a batch takes. -/
def fronts : Nat → Machine → List Machine
  | 0, _ => []
  | budget + 1, m => if m.running then m :: m.step.machine.fronts budget else []

def frontsOf (m : Machine) : Operation → List Machine
  | .step => [m]
  | .tick => m.fronts m.settings.stepsPerTick.toNat
  | .run budget => m.fronts budget
  | _ => []

def frontsOfAll (m : Machine) : List Operation → List Machine
  | [] => []
  | op :: ops => m.frontsOf op ++ (m.perform op).machine.frontsOfAll ops

theorem map_step_fronts (budget : Nat) (m : Machine) :
    (m.fronts budget).map step = m.taken budget := by
  induction budget generalizing m with
  | zero => rfl
  | succ budget ih =>
    rw [fronts, taken]
    split
    · rw [List.map_cons, ih]
    · rfl

theorem map_step_frontsOfAll (ops : List Operation) (m : Machine) :
    (m.frontsOfAll ops).map step = m.stepsOfAll ops := by
  induction ops generalizing m with
  | nil => rfl
  | cons op ops ih =>
    rw [frontsOfAll, stepsOfAll, List.map_append, ih]
    congr 1
    cases op with
    | tick => exact map_step_fronts _ m
    | run budget => exact map_step_fronts budget m
    | _ => rfl

theorem fronts_of_off {m : Machine} (h : m.running = false) (budget : Nat) :
    m.fronts budget = [] := by
  cases budget with
  | zero => rfl
  | succ budget => rw [fronts, h]; rfl

section Relation

variable {R : Machine → List Machine → Machine → Prop}
  (hrefl : ∀ m, R m [] m) (hstep : ∀ m, R m [m] m.step.machine)
  (happend : ∀ {m n o fronts more}, R m fronts n → R n more o → R m (fronts ++ more) o)
include hrefl hstep happend

theorem fronts_relates (k : Nat) (m : Machine) : R m (m.fronts k) (m.after k) := by
  induction k generalizing m with
  | zero => exact hrefl m
  | succ k ih =>
    cases hrunning : m.running with
    | false =>
      rw [fronts_of_off hrunning, after_of_off hrunning]
      exact hrefl m
    | true =>
      rw [fronts, hrunning, if_pos rfl]
      exact happend (hstep m) (ih m.step.machine)

/-- What single steps keep, a batch keeps. -/
theorem run_fronts_relates (budget : Nat) (m : Machine) :
    R m (m.fronts budget) (m.run budget).machine := by
  rw [(run_eq budget m).1]
  exact fronts_relates hrefl hstep happend budget m

end Relation

end Microboard.Machine
