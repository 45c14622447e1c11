import Microboard.Program.Variable

/-!
# Commands

A command is a statement after its names are looked up and its literals are cut down to the bytes
that the board works with. A statement that the compiler cannot express becomes a note that says
why; nothing else in a command can fail.
-/

namespace Microboard

/-- A byte that is at hand: a variable or a literal. -/
inductive Source where
  | variable (v : Variable)
  | literal (value : UInt8)
deriving DecidableEq, Repr

/-- A sum or difference of a variable and a literal. -/
structure Shifted where
  base : Variable
  sign : Sign
  amount : UInt8
deriving DecidableEq, Repr

inductive Coordinate where
  | plain (source : Source)
  | shifted (value : Shifted)
deriving DecidableEq, Repr

/-- Why a statement cannot be expressed. -/
inductive Unsupported where
  | unknownVariable (name : String)
  /-- There is no code for this form of assignment. -/
  | assignment (name : String) (op : AssignOp) (value : Expression)
  /-- A pixel cannot have this coordinate. -/
  | coordinate (e : Expression)
  /-- The cursor cannot be moved to this column. -/
  | column (e : Expression)
deriving DecidableEq, Repr, Inhabited

def Unsupported.message : Unsupported → String
  | .unknownVariable name => "unknown variable `" ++ name ++ "`"
  | .assignment name op value => name ++ " " ++ op.symbol ++ " " ++ value.text
  | .coordinate e => "pixel coordinate " ++ e.text
  | .column e => "cursor x " ++ e.text

/-- What a statement asks of the board. -/
inductive Command where
  | load (target : Variable) (value : UInt8)
  | negate (target source : Variable)
  | increase (target source : Variable)
  | branch (left : Variable) (comparison : Comparison) (right : UInt8) (body : List Command)
  | loop (body : List Command)
  | pixel (x y : Coordinate)
  | print (text : List UInt8)
  | clear
  | move (x : Source) (y : UInt8)
  | delay (cycles : UInt16)
  /-- A statement of this kind cannot be expressed, and asks nothing. -/
  | skipped (kind : String) (reason : Unsupported)
deriving Repr, Inhabited

/-! ### Looking up a statement -/

def Variable.resolve (name : String) : Except Unsupported Variable :=
  match Variable.ofName? name with
  | some v => .ok v
  | none => .error (.unknownVariable name)

/-- A coordinate of a pixel; a negation is none. -/
def Coordinate.resolve : Expression → Except Unsupported Coordinate
  | .name name => return .plain (.variable (← Variable.resolve name))
  | .literal value => return .plain (.literal (lowByte value))
  | .shifted base sign amount => return .shifted ⟨← Variable.resolve base, sign, lowByte amount⟩
  | e => .error (.coordinate e)

/-- A column to move to; only a name or a literal is one. -/
def Source.resolve : Expression → Except Unsupported Source
  | .name name => return .variable (← Variable.resolve name)
  | .literal value => return .literal (lowByte value)
  | e => .error (.column e)

/-- An assignment. A variable can be set to a literal or to the negative of a variable, and a
    variable can be added to it. -/
def resolveAssignment (name : String) (op : AssignOp) (value : Expression) :
    Except Unsupported Command := do
  let target ← Variable.resolve name
  match op, value with
  | .set, .literal value => return .load target (lowByte value)
  | .set, .negation (.name source) => return .negate target (← Variable.resolve source)
  | .add, .name source => return .increase target (← Variable.resolve source)
  | _, _ => .error (.assignment name op value)

namespace Statement

/-- A command, or else the note that the statement cannot be expressed. -/
def orSkipped (s : Statement) : Except Unsupported Command → Command
  | .ok c => c
  | .error reason => .skipped s.kind reason

mutual

/-- The command that a statement is. The body of a conditional on an unknown variable is not even
    looked at. -/
def resolve : Statement → Command
  | .declare name value =>
    orSkipped (.declare name value) (return .load (← Variable.resolve name) (lowByte value))
  | .assign name op value => orSkipped (.assign name op value) (resolveAssignment name op value)
  | .branch left comparison right body =>
    orSkipped (.branch left comparison right body)
      (return .branch (← Variable.resolve left) comparison (lowByte right) (resolveAll body))
  | .loop body => .loop (resolveAll body)
  | .pixel x y =>
    orSkipped (.pixel x y) (return .pixel (← Coordinate.resolve x) (← Coordinate.resolve y))
  | .print text => .print (text.toList.map fun c => UInt8.ofNat (c.toNat % 256))
  | .clear => .clear
  | .move x y => orSkipped (.move x y) (return .move (← Source.resolve x) (lowByte y))
  | .delay cycles => .delay (lowWord cycles)

def resolveAll : List Statement → List Command
  | [] => []
  | s :: rest => s.resolve :: resolveAll rest

end

end Statement

def Program.commands (p : Program) : List Command :=
  Statement.resolveAll p

end Microboard
