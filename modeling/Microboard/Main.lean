import Microboard.Console.Session

/-!
# The command line

Reads the files that the options name, hands them to the session, and puts what comes of it where it
belongs.
-/

namespace Microboard.Console

def stepsVariable : String := "ESP32EMU_STEPS_PER_TICK"

def usageText : String :=
  "usage: (--ast PATH | --firmware PATH) [--output PATH] [--disasm] [--ticks N]\n"
    ++ "       [--steps-per-tick N] [--config PATH] [--adc VALUE] [--events]\n"

def readFile (path : String) : IO (Option (Array UInt8)) := do
  try
    return some (← IO.FS.readBinFile path).data
  catch _ => return none

/-- A disk with those of the files at the paths that exist. -/
def readDisk (paths : List String) : IO Disk := do
  let found ← paths.filterMapM fun path => do
    return (← readFile path).map fun bytes => (path, bytes)
  return .ofFiles found

/-- Writes a file, and tells whether that was possible. -/
def writeFile (path : String) (bytes : Array UInt8) : IO Bool := do
  try
    IO.FS.writeBinFile path ⟨bytes⟩
    return true
  catch _ => return false

def fail (f : Failure) : IO UInt32 := do
  IO.eprintln f.line
  return 1

def Options.carryOut (o : Options) : IO UInt32 := do
  let input ←
    if o.ast = some "-" then (← IO.getStdin).readBinToEnd else pure .empty
  let disk ← readDisk (o.config.toList ++ o.firmware.toList ++ o.ast.toList)
  let environment ← IO.getEnv stepsVariable
  let prepared : Except Failure (Settings × Array UInt8) := do
    return (← o.settings disk environment, ← o.image disk ⟨some input.data⟩)
  match prepared with
  | .error f => fail f
  | .ok (settings, image) =>
    if let some path := o.output then
      unless ← writeFile path image do
        return ← fail (.output path .missing)
    let (printed, failure) := o.present settings image
    IO.print printed
    match failure with
    | some f => fail f
    | none => return 0

end Microboard.Console

def main (args : List String) : IO UInt32 := do
  match Microboard.Console.Options.ofArguments args with
  | .ok o => o.carryOut
  | .error usage =>
    match usage with
    | .help => IO.print Microboard.Console.usageText
    | .wrong => IO.eprint Microboard.Console.usageText
    return usage.status
