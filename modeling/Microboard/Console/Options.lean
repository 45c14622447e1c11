import Microboard.Text.Numeral

/-!
# Command line options

Options are long names. Some take a value, which is the next argument or follows an equals sign; the
others are flags. Every option may be given once, and there are no other arguments.
-/

namespace Microboard.Console

inductive Switch where
  | ast
  | firmware
  | output
  | disasm
  | ticks
  | stepsPerTick
  | config
  | adc
  | events
deriving DecidableEq, Repr

namespace Switch

def all : List Switch :=
  [.ast, .firmware, .output, .disasm, .ticks, .stepsPerTick, .config, .adc, .events]

/-- The name of the option, without the dashes. -/
def name : Switch → String
  | .ast => "ast"
  | .firmware => "firmware"
  | .output => "output"
  | .disasm => "disasm"
  | .ticks => "ticks"
  | .stepsPerTick => "steps-per-tick"
  | .config => "config"
  | .adc => "adc"
  | .events => "events"

/-- Whether the option is a flag, which takes no value. -/
def isFlag : Switch → Bool
  | .disasm | .events => true
  | _ => false

def ofName? (s : String) : Option Switch :=
  all.find? (·.name == s)

end Switch

structure Options where
  /-- Where the text of a program is; a dash stands for standard input. -/
  ast : Option String := none
  /-- Where a firmware image is. -/
  firmware : Option String := none
  /-- Where to write the firmware. -/
  output : Option String := none
  /-- Whether to print a listing of the firmware. -/
  disasm : Bool := false
  /-- Ticks to run; none of them leaves the machine off. -/
  ticks : UInt32 := 0
  /-- Steps per tick, instead of those of the settings. -/
  stepsPerTick : Option UInt32 := none
  /-- Where the settings are. -/
  config : Option String := none
  /-- What the analog input reads. -/
  adc : Option Int64 := none
  /-- Whether to print events. -/
  events : Bool := false
deriving DecidableEq, Repr

/-- Why a command line asks for nothing that can be done. -/
inductive Usage where
  /-- It asks how to be used. -/
  | help
  /-- It is no proper command line. -/
  | wrong
deriving DecidableEq, Repr

/-- What is known after some of the arguments. -/
structure Progress where
  options : Options := {}
  /-- The options given so far. -/
  given : List Switch := []
  /-- The option whose value must come next. -/
  waiting : Option Switch := none
  /-- Whether a double dash has ended the options. -/
  ended : Bool := false

namespace Progress

/-- A path; it must not be empty. -/
def path (value : String) : Except Usage (Option String) :=
  if value.isEmpty then .error .wrong else .ok (some value)

def uint32 (value : String) : Except Usage UInt32 :=
  match Text.integer? 0 4294967295 value.toList with
  | some i => .ok (UInt32.ofNat i.toNat)
  | none => .error .wrong

def int64 (value : String) : Except Usage Int64 :=
  match Text.integer? Int64.minValue.toInt Int64.maxValue.toInt value.toList with
  | some i => .ok (Int64.ofInt i)
  | none => .error .wrong

/-- The options with the value of one of them; a flag takes none. -/
def withValue (o : Options) (value : String) : Switch → Except Usage Options
  | .ast => return { o with ast := ← path value }
  | .firmware => return { o with firmware := ← path value }
  | .output => return { o with output := ← path value }
  | .ticks => return { o with ticks := ← uint32 value }
  | .stepsPerTick => return { o with stepsPerTick := ← uint32 value }
  | .config => return { o with config := ← path value }
  | .adc => return { o with adc := ← int64 value }
  | .disasm | .events => .error .wrong

/-- The options with a flag; other options must have a value. -/
def withFlag (o : Options) : Switch → Except Usage Options
  | .disasm => return { o with disasm := true }
  | .events => return { o with events := true }
  | _ => .error .wrong

/-- Splits an argument at its first equals sign. -/
def split (arg : List Char) : String × Option String :=
  let name := String.ofList (arg.takeWhile (· ≠ '='))
  match arg.dropWhile (· ≠ '=') with
  | [] => (name, none)
  | _ :: value => (name, some (String.ofList value))

/-- Takes an argument that begins with two dashes, less these. -/
def takeLong (p : Progress) (arg : List Char) : Except Usage Progress := do
  let (name, value) := split arg
  if name = "help" ∧ value.isNone then throw .help
  let some switch := Switch.ofName? name | throw .wrong
  if switch ∈ p.given then throw .wrong
  let p := { p with given := switch :: p.given }
  match value with
  | some value => return { p with options := ← withValue p.options value switch }
  | none =>
    if switch.isFlag then return { p with options := ← withFlag p.options switch }
    else return { p with waiting := some switch }

/-- Takes one argument. An argument that begins with a dash is no value, unless it is just that. -/
def take (p : Progress) (arg : String) : Except Usage Progress :=
  if p.ended then .error .wrong
  else
    match p.waiting with
    | some switch =>
      if arg.toList.head? = some '-' ∧ arg ≠ "-" then .error .wrong
      else return { p with options := ← withValue p.options arg switch, waiting := none }
    | none =>
      match arg.toList with
      | ['-', '-'] => .ok { p with ended := true }
      | ['-', 'h'] => .error .help
      | '-' :: '-' :: long => p.takeLong long
      | _ => .error .wrong

/-- The options, when there are no more arguments. A program and an image exclude each other. -/
def finish (p : Progress) : Except Usage Options :=
  if p.waiting.isSome || (p.options.ast.isSome && p.options.firmware.isSome) then .error .wrong
  else .ok p.options

end Progress

def Options.ofArguments (args : List String) : Except Usage Options := do
  let p ← args.foldlM Progress.take {}
  p.finish

end Microboard.Console
