import Microboard.Compiler.Compilation
import Microboard.Machine.Operation

/-!
# The workbench

A workbench is a machine together with the firmware that was compiled last. Compiling keeps the
firmware for a later load and clears the registers, whatever comes of it. Loading from the workbench
also blanks the display.
-/

namespace Microboard

/-- A machine and the last compiled firmware. -/
structure Workbench where
  machine : Machine
  firmware : Option (Array UInt8) := none

namespace Workbench

def new (settings : Settings) : Workbench :=
  { machine := .new settings }

inductive Operation where
  /-- Compile the text of a program. -/
  | compile (text : String)
  /-- Load an image and blank the display. -/
  | load (image : Array UInt8)
  /-- Load what was compiled last. -/
  | loadCompiled
  /-- Do something to the machine itself. -/
  | machine (op : Machine.Operation)

inductive Reply where
  | compiled (report : CompileReport)
  | loaded
  | rejected (error : CapacityExceeded)
  | nothingCompiled
  | machine (reply : Machine.Reply)

/-- The workbench after an operation, what is told about it, and what happened meanwhile. -/
structure Response where
  bench : Workbench
  reply : Reply
  events : List Event := []

def compile (w : Workbench) (text : String) : Workbench × CompileReport :=
  let report := compileText text
  let firmware :=
    match report with
    | .ok firmware => some firmware.code
    | .error _ => w.firmware
  ({ machine := { w.machine with registers := .zero }, firmware }, report)

/-- Loads an image. The display is blanked only if the image fits. -/
def load (w : Workbench) (image : Array UInt8) : Response :=
  match w.machine.load image with
  | .ok machine => ⟨{ w with machine }, .loaded, [.clearScreen]⟩
  | .error e => ⟨w, .rejected e, []⟩

/-- Loads what was compiled last. It is out of the workbench while it is being loaded, and is put
    back whatever comes of that. -/
def loadCompiled (w : Workbench) : Response :=
  match w.firmware with
  | some image =>
    let r := { w with firmware := none }.load image
    { r with bench := { r.bench with firmware := some image } }
  | none => ⟨w, .nothingCompiled, []⟩

def perform (w : Workbench) : Operation → Response
  | .compile text =>
    let (bench, report) := w.compile text
    ⟨bench, .compiled report, []⟩
  | .load image => w.load image
  | .loadCompiled => w.loadCompiled
  | .machine op =>
    let r := w.machine.perform op
    ⟨{ w with machine := r.machine }, .machine r.reply, r.events⟩

end Workbench

end Microboard
