import Microboard.Compiler.Emitter

/-!
# Lowering commands

`Command.lower` appends the instructions of a command. A conditional compares and skips its body
when the comparison fails. A loop jumps back to its start. In front of the first loop of a program
stands a jump to the very next instruction, which parts the setup of the program from its running.
-/

namespace Microboard

/-- The jumps that skip the body of a conditional: together they are taken exactly when the
    comparison fails. -/
def Comparison.skips : Comparison → List Condition
  | .greater => [.less, .equal]
  | .less => [.greater, .equal]
  | .equal => [.notEqual]
  | .notEqual => [.equal]

namespace Emitter

def loadVariable (e : Emitter) (v : Variable) (value : UInt8) : Emitter :=
  (e.emit (.loadImmediate v.register value)).updateCache (.forget v)

/-- The instruction that adds or subtracts the literal register. -/
def applySign (register : UInt8) : Sign → Instruction
  | .plus => .add register literalRegister
  | .minus => .subtract register literalRegister

/-- The instructions that compute a shifted coordinate into a register. -/
def derivation (register : UInt8) (value : Shifted) : List Instruction :=
  [.loadImmediate register 0, .add register value.base.register,
    .loadImmediate literalRegister value.amount, applySign register value.sign]

/-- Sees to it that a coordinate is in a register, and tells in which one. A shifted coordinate that
    its register already holds is not computed again. -/
def coordinate (e : Emitter) (axis : Axis) : Coordinate → Emitter × UInt8
  | .plain (.variable v) => (e, v.register)
  | .plain (.literal value) =>
    ((e.emit (.loadImmediate axis.register value)).updateCache (·.set axis none), axis.register)
  | .shifted value =>
    if e.cache.get axis = some value then (e, axis.register)
    else
      ((e.emitAll (derivation axis.register value)).updateCache (·.set axis (some value)),
        axis.register)

def pixel (e : Emitter) (x y : Coordinate) : Emitter :=
  let (e, xRegister) := e.coordinate .x x
  let (e, yRegister) := e.coordinate .y y
  e.emit (.drawPixel xRegister yRegister)

/-- Moves the cursor, first its column and then its row. -/
def move (e : Emitter) (x : Source) (y : UInt8) : Emitter :=
  let (e, xRegister) : Emitter × UInt8 :=
    match x with
    | .variable v => (e, v.register)
    | .literal value => (e.emit (.loadImmediate cursorRegister value), cursorRegister)
  e.emitAll [.moveX xRegister, .loadImmediate cursorRegister y, .moveY cursorRegister]

/-- Compares a variable with a literal, and opens the skips of a conditional. -/
def beginBranch (e : Emitter) (left : Variable) (comparison : Comparison) (right : UInt8) :
    Emitter :=
  (e.emitAll
    [.loadImmediate compareRegister right, .compare left.register compareRegister]).openSkips
      comparison.skips

/-- Emits the jump in front of the first loop, unless that has been done. -/
def endSetup (e : Emitter) : Emitter :=
  if e.setupEnded then e
  else
    { e.emitJump .always (e.address + (Opcode.jump .always).recordLength) with
      setupEnded := true }

def endLoop (e : Emitter) (start : Nat) : Emitter :=
  e.emitJump .always start

end Emitter

mutual

/-- Appends what a command asks for. Behind a conditional, whose body may have been skipped, only
    those shifted coordinates are known that were known before it and that its body left alone. -/
def Command.lower (e : Emitter) : Command → Emitter
  | .load target value => e.loadVariable target value
  | .negate target source =>
    (e.emitAll
      [.loadImmediate literalRegister 0, .subtract literalRegister source.register,
        .loadImmediate target.register 0, .add target.register literalRegister]).updateCache
      (.forget target)
  | .increase target source =>
    (e.emit (.add target.register source.register)).updateCache (.forget target)
  | .branch left comparison right body =>
    let before := e.cache
    let inside := lowerAll (e.beginBranch left comparison right) body
    inside.closeSkips.updateCache (·.agreement before)
  | .loop body =>
    let outside := e.endSetup
    let start := outside.address
    let depth := outside.skips.length
    let inside := lowerAll (outside.updateCache fun _ => {}) body
    (inside.endLoop start).closeSkipsTo depth
  | .pixel x y => e.pixel x y
  | .print text =>
    e.emitAll (text.flatMap fun c =>
      [.loadImmediate literalRegister c, .screenPrint literalRegister])
  | .clear => e.emit .screenClear
  | .move x y => e.move x y
  | .delay cycles => e.emit (.delay cycles)
  | .skipped kind reason => e.report (.unsupported kind reason)

def lowerAll (e : Emitter) : List Command → Emitter
  | [] => e
  | c :: rest => lowerAll (c.lower e) rest

end

end Microboard
