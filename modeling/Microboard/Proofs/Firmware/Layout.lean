import Microboard.Compiler.Compilation
import Microboard.Proofs.Firmware.Code

/-!
# The layout of firmware

A program becomes firmware in two steps that depend on each other in the compiler and are told apart
here. `Command.arrange` decides, from what the pixel registers hold and from whether a loop came
before, which instructions each command gets: the outcome is a tree of `Block`s that has the shape
of the program. From the tree alone follow the addresses: `Block.code` is the code of a block that
starts at an address, `Block.jumps` its jumps with the targets that they are meant to have, and
`Block.diagnostics` what is reported about it.
-/

namespace Microboard

/-! ### Jumps -/

/-- A jump at an address, with the target that it is meant to have, which may be too large to be
    named by one byte. -/
structure Jump where
  address : Nat
  condition : Condition
  target : Nat
deriving DecidableEq, Repr

namespace Jump

def size : Nat := (Opcode.jump .always).recordLength

/-- The instruction, which names the low byte of the target. -/
def instruction (j : Jump) : Instruction :=
  .jump j.condition (UInt8.ofNat j.target)

/-- Whether the target is too large to be named. -/
def Overflows (j : Jump) : Prop :=
  Emitter.maxTarget < j.target

instance (j : Jump) : Decidable j.Overflows :=
  inferInstanceAs (Decidable (_ < _))

def diagnostics (j : Jump) : List Diagnostic :=
  if j.Overflows then [.addressOverflow j.address j.target] else []

/-- Jumps in a row to one target, the first of which stands at an address. -/
def row (address target : Nat) : List Condition → List Jump
  | [] => []
  | condition :: conditions =>
    ⟨address, condition, target⟩ :: row (address + size) target conditions

end Jump

/-! ### Blocks -/

/-- What a command becomes. -/
inductive Block where
  /-- Instructions without a jump. -/
  | straight (code : List Instruction)
  /-- A comparison, the jumps that skip the body when it fails, and the body. -/
  | branch (left : Variable) (comparison : Comparison) (right : UInt8) (body : List Block)
  /-- A body and the jump back to its start; in front of the first loop the jump that ends the
      setup. -/
  | loop (first : Bool) (body : List Block)
  /-- Nothing but a note that a statement cannot be expressed. -/
  | note (kind : String) (reason : Unsupported)
deriving Repr, Inhabited

def testCode (left : Variable) (right : UInt8) : List Instruction :=
  [.loadImmediate compareRegister right, .compare left.register compareRegister]

def skipsAddress (address : Nat) (left : Variable) (right : UInt8) : Nat :=
  address + Instruction.size (testCode left right)

def bodyAddress (address : Nat) (left : Variable) (comparison : Comparison) (right : UInt8) : Nat :=
  skipsAddress address left right + Jump.size * comparison.skips.length

/-- Where the body of a loop at an address starts: behind the jump that ends the setup, if there is
    one. -/
def loopAddress (address : Nat) (first : Bool) : Nat :=
  if first then address + Jump.size else address

def setupJumps (address : Nat) (first : Bool) : List Jump :=
  if first then [⟨address, .always, loopAddress address first⟩] else []

mutual

def Block.size : Block → Nat
  | .straight code => Instruction.size code
  | .branch left comparison right body => bodyAddress 0 left comparison right + Block.sizeAll body
  | .loop first body => loopAddress 0 first + Block.sizeAll body + Jump.size
  | .note .. => 0

def Block.sizeAll : List Block → Nat
  | [] => 0
  | b :: rest => b.size + Block.sizeAll rest

end

/-- The jumps that skip the body of a conditional lead to the address just past it. -/
def skipJumps (address : Nat) (left : Variable) (comparison : Comparison) (right : UInt8)
    (body : List Block) : List Jump :=
  Jump.row (skipsAddress address left right)
    (bodyAddress address left comparison right + Block.sizeAll body) comparison.skips

/-- The jump at the end of a loop leads back to its start. -/
def backJump (address : Nat) (first : Bool) (body : List Block) : Jump :=
  ⟨loopAddress address first + Block.sizeAll body, .always, loopAddress address first⟩

mutual

def Block.code (address : Nat) : Block → List Instruction
  | .straight code => code
  | .branch left comparison right body =>
    testCode left right
      ++ (skipJumps address left comparison right body).map Jump.instruction
      ++ Block.codeAll (bodyAddress address left comparison right) body
  | .loop first body =>
    (setupJumps address first).map Jump.instruction
      ++ Block.codeAll (loopAddress address first) body
      ++ [(backJump address first body).instruction]
  | .note .. => []

def Block.codeAll (address : Nat) : List Block → List Instruction
  | [] => []
  | b :: rest => b.code address ++ Block.codeAll (address + b.size) rest

end

mutual

/-- The jumps of a block that starts at an address, in the order of their addresses. -/
def Block.jumps (address : Nat) : Block → List Jump
  | .straight _ => []
  | .branch left comparison right body =>
    skipJumps address left comparison right body
      ++ Block.jumpsAll (bodyAddress address left comparison right) body
  | .loop first body =>
    setupJumps address first ++ Block.jumpsAll (loopAddress address first) body
      ++ [backJump address first body]
  | .note .. => []

def Block.jumpsAll (address : Nat) : List Block → List Jump
  | [] => []
  | b :: rest => b.jumps address ++ Block.jumpsAll (address + b.size) rest

end

mutual

/-- What is reported about a block that starts at an address, in the order in which it is found: the
    target of a skip is known only behind the body. -/
def Block.diagnostics (address : Nat) : Block → List Diagnostic
  | .straight _ => []
  | .branch left comparison right body =>
    Block.diagnosticsAll (bodyAddress address left comparison right) body
      ++ (skipJumps address left comparison right body).flatMap Jump.diagnostics
  | .loop first body =>
    (setupJumps address first).flatMap Jump.diagnostics
      ++ Block.diagnosticsAll (loopAddress address first) body
      ++ (backJump address first body).diagnostics
  | .note kind reason => [.unsupported kind reason]

def Block.diagnosticsAll (address : Nat) : List Block → List Diagnostic
  | [] => []
  | b :: rest => b.diagnostics address ++ Block.diagnosticsAll (address + b.size) rest

end

/-! ### Arranging commands -/

/-- What decides about the code of the commands to come. -/
structure Stage where
  /-- Whether a loop came before. -/
  setupEnded : Bool := false
  /-- What the pixel registers hold. -/
  cache : PixelCache := {}
deriving DecidableEq, Repr

namespace Coordinate

def register (axis : Axis) : Coordinate → UInt8
  | .plain (.variable v) => v.register
  | _ => axis.register

/-- The instructions that bring a coordinate into its register. -/
def code (cache : PixelCache) (axis : Axis) : Coordinate → List Instruction
  | .plain (.variable _) => []
  | .plain (.literal value) => [.loadImmediate axis.register value]
  | .shifted value =>
    if cache.get axis = some value then [] else Emitter.derivation axis.register value

/-- What the pixel registers hold once a coordinate is in its register. -/
def cacheAfter (cache : PixelCache) (axis : Axis) : Coordinate → PixelCache
  | .plain (.variable _) => cache
  | .plain (.literal _) => cache.set axis none
  | .shifted value => cache.set axis (some value)

end Coordinate

namespace Command

/-- The instructions of a command that has no body. -/
def code (cache : PixelCache) : Command → List Instruction
  | .load target value => [.loadImmediate target.register value]
  | .negate target source =>
    [.loadImmediate literalRegister 0, .subtract literalRegister source.register,
      .loadImmediate target.register 0, .add target.register literalRegister]
  | .increase target source => [.add target.register source.register]
  | .pixel x y =>
    x.code cache .x ++ y.code (x.cacheAfter cache .x) .y
      ++ [.drawPixel (x.register .x) (y.register .y)]
  | .print text =>
    text.flatMap fun c => [.loadImmediate literalRegister c, .screenPrint literalRegister]
  | .clear => [.screenClear]
  | .move (.variable v) y =>
    [.moveX v.register, .loadImmediate cursorRegister y, .moveY cursorRegister]
  | .move (.literal value) y =>
    [.loadImmediate cursorRegister value, .moveX cursorRegister, .loadImmediate cursorRegister y,
      .moveY cursorRegister]
  | .delay cycles => [.delay cycles]
  | .branch .. | .loop _ | .skipped .. => []

/-- What the pixel registers hold behind a command that has no body. -/
def cacheAfter (cache : PixelCache) : Command → PixelCache
  | .load target _ | .negate target _ | .increase target _ => cache.forget target
  | .pixel x y => y.cacheAfter (x.cacheAfter cache .x) .y
  | _ => cache

mutual

/-- The block that a command becomes at a stage, and the stage behind it. -/
def arrange (s : Stage) : Command → Block × Stage
  | .branch left comparison right body =>
    let (blocks, inside) := arrangeAll s body
    (.branch left comparison right blocks,
      { inside with cache := inside.cache.agreement s.cache })
  | .loop body =>
    let (blocks, inside) := arrangeAll { setupEnded := true } body
    (.loop (!s.setupEnded) blocks, inside)
  | .skipped kind reason => (.note kind reason, s)
  | c => (.straight (c.code s.cache), { s with cache := c.cacheAfter s.cache })

def arrangeAll (s : Stage) : List Command → List Block × Stage
  | [] => ([], s)
  | c :: rest =>
    let (block, next) := c.arrange s
    let (blocks, last) := arrangeAll next rest
    (block :: blocks, last)

end

end Command

def Program.blocks (p : Program) : List Block :=
  (Command.arrangeAll {} (Program.commands p)).1

end Microboard
