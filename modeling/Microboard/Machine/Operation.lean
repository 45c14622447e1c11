import Microboard.Machine.Run

/-!
# What a host does to a machine

Everything that a host can do to a machine is an `Operation`, so that a session with it is a list of
operations.
-/

namespace Microboard

namespace Machine

inductive Operation where
  | load (image : Array UInt8)
  | start
  | stop
  | step
  | tick
  | run (budget : Nat)
  | setRegister (register value : UInt8)
  | setLevel (pin value : UInt8)
  | setMode (pin : UInt8) (mode : PinMode)
  | connect (input : AnalogInput)

inductive Reply where
  | done
  | rejected (error : CapacityExceeded)
  | stepped (outcome : Except Fault Outcome)
  | ran (result : Except Fault Report)
  /-- Whether the pin exists. -/
  | accepted (known : Bool)

/-- The machine after an operation, what the host is told, and what happened meanwhile. -/
structure Response where
  machine : Machine
  reply : Reply
  events : List Event := []

def perform (m : Machine) : Operation → Response
  | .load image =>
    match m.load image with
    | .ok loaded => ⟨loaded, .done, []⟩
    | .error e => ⟨m, .rejected e, []⟩
  | .start => ⟨m.start, .done, []⟩
  | .stop => ⟨m.stop, .done, []⟩
  | .step =>
    let s := m.step
    ⟨s.machine, .stepped s.outcome, s.events⟩
  | .tick =>
    let b := m.tick
    ⟨b.machine, .ran b.result, b.events⟩
  | .run budget =>
    let b := m.run budget
    ⟨b.machine, .ran b.result, b.events⟩
  | .setRegister r value => ⟨{ m with registers := m.registers.set r value }, .done, []⟩
  | .setLevel p value => ⟨{ m with pins := m.pins.write p value }, .accepted (Pins.has p), []⟩
  | .setMode p mode => ⟨{ m with pins := m.pins.setMode p mode }, .accepted (Pins.has p), []⟩
  | .connect input => ⟨{ m with adc := input }, .done, []⟩

def performAll (m : Machine) (ops : List Operation) : Machine :=
  ops.foldl (fun m op => (m.perform op).machine) m

end Machine

end Microboard
