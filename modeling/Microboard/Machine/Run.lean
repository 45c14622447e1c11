import Microboard.Machine.Step

/-!
# Batches of steps

The host runs the machine in batches: up to so many steps while the machine stays on. A fault ends
the batch and is its result.
-/

namespace Microboard

/-- What a batch without a fault reports: the steps it took, and whether the machine is still on. -/
structure Report where
  steps : Nat
  running : Bool
deriving DecidableEq, Repr

structure Batch where
  machine : Machine
  result : Except Fault Report
  events : List Event

namespace Machine

/-- Takes up to `budget` more steps after `steps` that gave `events`. -/
def resume (budget steps : Nat) (events : Array Event) (m : Machine) : Batch :=
  match budget with
  | 0 => ⟨m, .ok ⟨steps, m.running⟩, events.toList⟩
  | budget + 1 =>
    if m.running then
      match m.step with
      | ⟨after, .ok _, new⟩ => after.resume budget (steps + 1) (events ++ new)
      | ⟨after, .error fault, new⟩ => ⟨after, .error fault, (events ++ new).toList⟩
    else ⟨m, .ok ⟨steps, false⟩, events.toList⟩

/-- Takes up to `budget` steps while the machine is on. -/
def run (budget : Nat) (m : Machine) : Batch :=
  m.resume budget 0 #[]

/-- One tick of the host: as many steps as the settings say. -/
def tick (m : Machine) : Batch :=
  m.run m.settings.stepsPerTick.toNat

end Machine

end Microboard
