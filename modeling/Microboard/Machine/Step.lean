import Microboard.Machine.Basic

/-!
# One step

A step of a running machine passes one cycle of a delay, or else executes the record at the program
counter. A machine that is switched off, or whose program counter has left flash, halts. A record
that cannot be read is a fault: it stops the machine, is remembered, and nothing is executed.
-/

namespace Microboard

/-- What a step did when it met no fault. -/
inductive Outcome where
  /-- Nothing: the machine is off, or has just run past the end of flash. -/
  | halted
  /-- One cycle of a delay has passed. -/
  | delayed (remaining : UInt16)
  /-- The instruction at `pc` was executed; `jumped` tells whether it repointed the program
      counter. -/
  | executed (pc : UInt32) (instruction : Instruction) (jumped : Bool)
deriving DecidableEq, Repr

structure Step where
  machine : Machine
  outcome : Except Fault Outcome
  events : List Event

namespace Machine

/-- Carries out an instruction, apart from moving the program counter. -/
def execute (i : Instruction) (m : Machine) : Machine × List Event :=
  match i with
  | .loadImmediate r value => ({ m with registers := m.registers.set r value }, [])
  | .storePin r p => ({ m with pins := m.pins.write p (m.registers.get r) }, [])
  | .loadPin r p =>
    match m.pins.level? p with
    | some level => ({ m with registers := m.registers.set r level }, [])
    | none => (m, [])
  | .jump .. => (m, [])
  | .serialWrite r =>
    let byte := m.registers.get r
    ({ m with serial := m.serial.push byte }, [.serial byte])
  | .add r s => ({ m with registers := m.registers.add r s }, [])
  | .subtract r s => ({ m with registers := m.registers.subtract r s }, [])
  | .compare r s => ({ m with flag := m.registers.compare r s }, [])
  | .delay cycles => ({ m with delay := cycles }, [])
  | .readAdc r =>
    ({ m with registers := m.registers.set r m.adc.next, adc := m.adc.advance }, [])
  | .spiWrite r =>
    let byte := m.registers.get r
    ({ m with spi := m.spi.push byte }, [.spi byte])
  | .screenPrint r =>
    let (panel, events) := m.panel.print (m.registers.get r)
    ({ m with panel }, events)
  | .screenClear =>
    let (panel, events) := m.panel.clear
    ({ m with panel }, events)
  | .drawPixel r s => (m, [.pixel (m.registers.get r) (m.registers.get s)])
  | .moveX r =>
    let (panel, events) := m.panel.moveX (m.registers.get r)
    ({ m with panel }, events)
  | .moveY r =>
    let (panel, events) := m.panel.moveY (m.registers.get r)
    ({ m with panel }, events)

/-- Executes a record: carries out its instruction, and then moves the program counter to the target
    of a jump that is taken, or past the record, whose length byte counts and not its opcode. -/
def retire (i : Instruction) (length : UInt8) (m : Machine) : Step :=
  let (after, events) := m.execute i
  let counter := m.counter + 1
  match i.destination? m.flag with
  | some target =>
    ⟨{ after with pc := origin + target.toUInt32, counter }, .ok (.executed m.pc i true), events⟩
  | none =>
    ⟨{ after with pc := m.pc + UInt32.ofNat (Opcode.headerLength + length.toNat), counter },
      .ok (.executed m.pc i false), events⟩

/-- Offset of the record to execute, if the machine is on and has not left flash. -/
def live? (m : Machine) : Option Nat :=
  if m.running then m.offset?.filter (· < flashCapacity) else none

def step (m : Machine) : Step :=
  match m.live? with
  | none => ⟨m.stop, .ok .halted, []⟩
  | some offset =>
    if m.delay ≠ 0 then
      let remaining := m.delay - 1
      ⟨{ m with delay := remaining }, .ok (.delayed remaining), []⟩
    else
      match m.flash.record offset with
      | .error cause =>
        let fault := ⟨cause, m.pc⟩
        ⟨{ m with running := false, fault := some fault }, .error fault, []⟩
      | .ok (i, length) => m.retire i length

end Machine

end Microboard
