import Microboard.Compiler.Compilation
import Microboard.Console.Disk
import Microboard.Console.Options
import Microboard.Event.Written
import Microboard.Json.Indented
import Microboard.Listing
import Microboard.Machine.Run
import Microboard.Machine.View
import Microboard.Settings.Reading

/-!
# A session on the command line

A session first gets its settings and its firmware, then writes the firmware if it is asked to, then
prints the listing, and last runs the machine and prints the view that it ends with. The first
failure ends it. A fault of the machine is no failure: the view tells of it.
-/

namespace Microboard.Console

/-! ### Failures -/

/-- Why a session ended early. -/
inductive Failure where
  | settings (path : String) (cause : Settings.LoadError)
  | noSource
  | source (path : String) (cause : FileError)
  | input (cause : FileError)
  | program (cause : CompileError)
  | output (path : String) (cause : FileError)
  | load (cause : CapacityExceeded)
deriving DecidableEq, Repr

namespace Failure

/-- The wording of a failure: what was being done, and behind it the chain of causes. -/
def message : Failure → String
  | .settings path (.unreadable cause) =>
    "loading config " ++ path ++ ": " ++ (Settings.LoadError.unreadable cause).message ++ ": "
      ++ cause.message
  | .settings path .malformed =>
    "loading config " ++ path ++ ": " ++ Settings.LoadError.malformed.message
  | .noSource => "either --ast or --firmware is required"
  | .source path cause => "reading " ++ path ++ ": " ++ cause.message
  | .input cause => cause.message
  | .program cause => cause.message
  | .output path cause => "writing " ++ path ++ ": " ++ cause.message
  | .load cause => cause.message

def line (f : Failure) : String :=
  "fatal: " ++ f.message

end Failure

/-! ### Preparation -/

/-- The settings of a session: those of the file, then the environment, then the option. -/
def Options.settings (o : Options) (disk : Disk) (environment : Option String) :
    Except Failure Settings := do
  let base ←
    match o.config with
    | some path => (Settings.ofFile (disk.file path)).mapError (.settings path)
    | none => pure {}
  let settings := base.override environment
  return { settings with stepsPerTick := o.stepsPerTick.getD settings.stepsPerTick }

/-- The text of the program at a path, where a dash stands for standard input. -/
def programText (path : String) (disk : Disk) (input : File) : Except Failure String :=
  if path = "-" then input.text.mapError .input
  else (disk.file path).text.mapError (.source path)

def Options.image (o : Options) (disk : Disk) (input : File) : Except Failure (Array UInt8) :=
  match o.firmware, o.ast with
  | some path, _ => (disk.file path).bytes.mapError (.source path)
  | none, some path => do
    let text ← programText path disk input
    return (← (compileText text).mapError .program).code
  | none, none => .error .noSource

/-! ### Running -/

/-- Runs up to `ticks` ticks behind those that gave `events`. A machine that is off needs no more
    ticks, and neither does one whose ticks have no steps. -/
def runTicks (ticks : Nat) (events : Array Event) (m : Machine) : Machine × List Event :=
  match ticks with
  | 0 => (m, events.toList)
  | ticks + 1 =>
    if m.settings.stepsPerTick = 0 then (m, events.toList)
    else
      let b := m.tick
      let events := events ++ b.events
      match b.result with
      | .ok report =>
        if report.running then runTicks ticks events b.machine else (b.machine, events.toList)
      | .error _ => (b.machine, events.toList)

def Options.machine (o : Options) (settings : Settings) : Machine :=
  let m := Machine.new settings
  match o.adc with
  | some value => { m with adc := .constant value }
  | none => m

/-- Runs an image, and gives what is printed: the events, if they are wanted, and the view. -/
def Options.runImage (o : Options) (settings : Settings) (image : Array UInt8) :
    Except Failure String := do
  let loaded ← ((o.machine settings).load image).mapError .load
  let (m, events) := runTicks o.ticks.toNat #[] loaded.start
  let log := if o.events then eventLog events else ""
  return log ++ m.view.indented ++ "\n"

/-- What a session prints once it has its image, and the failure that ended it, if any. -/
def Options.present (o : Options) (settings : Settings) (image : Array UInt8) :
    String × Option Failure :=
  let listing := if o.disasm then (Listing.ofImage image.toList).text else ""
  if o.ticks = 0 then (listing, none)
  else
    match o.runImage settings image with
    | .ok printed => (listing ++ printed, none)
    | .error f => (listing, some f)

/-! ### The whole session -/

structure Transcript where
  printed : String
  failure : Option Failure
  disk : Disk

def Options.session (o : Options) (disk : Disk) (input : File) (environment : Option String) :
    Transcript :=
  let prepared : Except Failure (Settings × Array UInt8 × Disk) := do
    let settings ← o.settings disk environment
    let image ← o.image disk input
    let disk ←
      match o.output with
      | some path => (disk.write path image).mapError (.output path)
      | none => pure disk
    return (settings, image, disk)
  match prepared with
  | .error f => ⟨"", some f, disk⟩
  | .ok (settings, image, disk) =>
    let (printed, failure) := o.present settings image
    ⟨printed, failure, disk⟩

def Transcript.status (t : Transcript) : UInt32 :=
  if t.failure.isSome then 1 else 0

def Usage.status : Usage → UInt32
  | .help => 0
  | .wrong => 2

end Microboard.Console
