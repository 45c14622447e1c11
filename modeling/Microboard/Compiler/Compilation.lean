import Microboard.Compiler.Lowering
import Microboard.Json.Tree
import Microboard.Program.Reading

/-!
# Compilation

A program always compiles; what it asks for and cannot have is left to the diagnostics. Compilation
fails only if there is no program, or if its text is none. A report tells the outcome of either kind
as a JSON object.
-/

namespace Microboard

structure Firmware where
  code : Array UInt8
  diagnostics : List Diagnostic
deriving DecidableEq, Repr

/-- Why nothing could be compiled. -/
inductive CompileError where
  /-- There is no program. -/
  | missing
  /-- The text is not that of a program. -/
  | unreadable
deriving DecidableEq, Repr

def CompileError.message : CompileError → String
  | .missing => "no AST to compile"
  | .unreadable => "parse failure"

def Emitter.firmware (e : Emitter) : Firmware :=
  ⟨e.code, e.diagnostics.toList⟩

def compileCommands (cs : List Command) : Firmware :=
  (lowerAll {} cs).firmware

def Program.compile (p : Program) : Firmware :=
  compileCommands (Program.commands p)

def Program.read (text : String) : Except CompileError Program :=
  match Program.read? text with
  | some p => .ok p
  | none => .error .unreadable

def compileText (text : String) : Except CompileError Firmware :=
  (Program.read text).map Program.compile

def compileText? : Option String → Except CompileError Firmware
  | some text => compileText text
  | none => .error .missing

/-! ### Reports -/

def Diagnostic.toJson : Diagnostic → Json
  | .unsupported statement reason =>
    .record
      [("kind", .text "unsupported_construct"), ("statement", .text statement),
        ("detail", .text reason.message)]
  | .addressOverflow address target =>
    .record [("kind", .text "address_overflow"), ("at", .nat address), ("target", .nat target)]

abbrev CompileReport := Except CompileError Firmware

namespace CompileReport

def toJson : CompileReport → Json
  | .ok firmware =>
    .record
      [("success", .bool true), ("firmware", .bytes firmware.code.toList),
        ("diagnostics", .array (firmware.diagnostics.map Diagnostic.toJson))]
  | .error e =>
    .record
      [("success", .bool false), ("error", .text e.message), ("diagnostics", .array [])]

def text (r : CompileReport) : String :=
  (toJson r).compact

end CompileReport

end Microboard
