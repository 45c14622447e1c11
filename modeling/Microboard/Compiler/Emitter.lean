import Microboard.Compiler.Command
import Microboard.Instruction.Record

/-!
# Emitting firmware

An `Emitter` holds the code that is written so far and what is still to be settled about it. A jump
forward is written with a placeholder for its target and patched once the target is known. Targets
are one byte wide: one that does not fit is cut down and reported.

The emitter also knows which shifted coordinates the two pixel registers hold, so that they need not
be computed again.
-/

namespace Microboard

/-! ### Registers of compiled code -/

def Variable.register : Variable → UInt8
  | .x => 5
  | .y => 6
  | .dx => 7

/-- Holds literals for a moment. -/
def literalRegister : UInt8 := 0

/-- Holds the right side of a comparison. -/
def compareRegister : UInt8 := 3

/-- Holds where the cursor moves to. -/
def cursorRegister : UInt8 := 4

/-- The two coordinates of a pixel. -/
inductive Axis where
  | x
  | y
deriving DecidableEq, Repr

def Axis.register : Axis → UInt8
  | .x => 1
  | .y => 2

/-! ### Shifted coordinates -/

/-- The shifted coordinates that the pixel registers hold. -/
structure PixelCache where
  x : Option Shifted := none
  y : Option Shifted := none
deriving DecidableEq, Repr

namespace PixelCache

def get (cache : PixelCache) : Axis → Option Shifted
  | .x => cache.x
  | .y => cache.y

def set (cache : PixelCache) (axis : Axis) (value : Option Shifted) : PixelCache :=
  match axis with
  | .x => { cache with x := value }
  | .y => { cache with y := value }

/-- Forgets the values whose base is the variable. -/
def forget (v : Variable) (cache : PixelCache) : PixelCache :=
  { x := cache.x.filter (·.base ≠ v), y := cache.y.filter (·.base ≠ v) }

/-- Keeps the values on which two caches agree. -/
def agreement (a b : PixelCache) : PixelCache :=
  { x := if a.x = b.x then a.x else none, y := if a.y = b.y then a.y else none }

end PixelCache

/-! ### Diagnostics -/

/-- A finding that does not keep firmware from being produced. -/
inductive Diagnostic where
  /-- A statement of this kind emitted nothing. -/
  | unsupported (statement : String) (reason : Unsupported)
  /-- The jump at `address` wanted a target that does not fit into one byte. -/
  | addressOverflow (address target : Nat)
deriving DecidableEq, Repr

/-! ### The emitter -/

/-- Firmware in the making. -/
structure Emitter where
  code : Array UInt8 := #[]
  /-- For each conditional that is still open, the innermost first, the places of the target bytes
      that are to name its end. -/
  skips : List (List Nat) := []
  /-- Whether the jump in front of the first loop has been emitted. -/
  setupEnded : Bool := false
  cache : PixelCache := {}
  diagnostics : Array Diagnostic := #[]
deriving DecidableEq, Repr

namespace Emitter

/-- Where the next instruction will stand: the number of bytes so far. -/
def address (e : Emitter) : Nat :=
  e.code.size

def emit (e : Emitter) (i : Instruction) : Emitter :=
  { e with code := e.code ++ i.encode }

def emitAll (e : Emitter) (is : List Instruction) : Emitter :=
  is.foldl emit e

def report (e : Emitter) (d : Diagnostic) : Emitter :=
  { e with diagnostics := e.diagnostics.push d }

/-- Changes what is known about the pixel registers. -/
def updateCache (e : Emitter) (f : PixelCache → PixelCache) : Emitter :=
  { e with cache := f e.cache }

/-- Largest target that a jump can name. -/
def maxTarget : Nat := 255

/-- Reports the jump at `address` if it cannot name `target`. -/
def checkTarget (e : Emitter) (address target : Nat) : Emitter :=
  if maxTarget < target then e.report (.addressOverflow address target) else e

def emitJump (e : Emitter) (condition : Condition) (target : Nat) : Emitter :=
  (e.checkTarget e.address target).emit (.jump condition (UInt8.ofNat target))

/-- Patches the target byte at `place` of a jump that was emitted earlier. -/
def patch (target : Nat) (e : Emitter) (place : Nat) : Emitter :=
  let e := e.checkTarget (place - Opcode.headerLength) target
  { e with code := e.code.setIfInBounds place (UInt8.ofNat target) }

/-- Emits jumps whose targets are not known yet, and keeps in mind where these are to be written. -/
def openSkips (e : Emitter) (conditions : List Condition) : Emitter :=
  let places := (List.range conditions.length).map fun k =>
    e.address + (Opcode.jump .always).recordLength * k + Opcode.headerLength
  let e := e.emitAll (conditions.map fun condition => .jump condition 0)
  { e with skips := places :: e.skips }

/-- Lets the skips that were opened last lead to the present address. -/
def closeSkips (e : Emitter) : Emitter :=
  match e.skips with
  | [] => e
  | places :: outer => places.foldl (patch e.address) { e with skips := outer }

/-- Lets all skips but the `depth` outermost lead to the present address. -/
def closeSkipsTo (depth : Nat) (e : Emitter) : Emitter :=
  let inner := e.skips.take (e.skips.length - depth)
  let outer := e.skips.drop (e.skips.length - depth)
  inner.flatten.foldl (patch e.address) { e with skips := outer }

end Emitter

end Microboard
