import Microboard.Panel
import Microboard.Program.Variable

/-!
# What a program means

A program works on three byte variables and on the panel, and shows what it does as events. It is
evaluated in small steps: a `Situation` holds the statements that are still to come and the present
scene. A loop never ends; its body comes again and again. A statement that uses a name or an
expression where the language does not provide for it does nothing, and a conditional on an unknown
variable does nothing with its body either.
-/

namespace Microboard

structure Scene where
  value : Variable → UInt8 := fun _ => 0
  panel : Panel

namespace Scene

def assign (scene : Scene) (v : Variable) (value : UInt8) : Scene :=
  { scene with value := fun w => if w = v then value else scene.value w }

/-- The value of a name, if it is that of a variable. -/
def lookup? (scene : Scene) (name : String) : Option UInt8 :=
  (Variable.ofName? name).map scene.value

/-- The value of a column to move to: a name or a literal. -/
def column? (scene : Scene) : Expression → Option UInt8
  | .name name => scene.lookup? name
  | .literal value => some (lowByte value)
  | _ => none

/-- The value of a coordinate: a name, a literal, or a sum or difference of both. -/
def coordinate? (scene : Scene) : Expression → Option UInt8
  | .shifted base .plus amount => (scene.lookup? base).map (· + lowByte amount)
  | .shifted base .minus amount => (scene.lookup? base).map (· - lowByte amount)
  | e => scene.column? e

/-- The value that an assignment gives to a variable: a literal, the negative of a variable, or a
    variable added to its own value. -/
def assigned? (scene : Scene) (v : Variable) : AssignOp → Expression → Option UInt8
  | .set, .literal value => some (lowByte value)
  | .set, .negation (.name source) => (scene.lookup? source).map (0 - ·)
  | .add, .name source => (scene.lookup? source).map (scene.value v + ·)
  | _, _ => none

def print (scene : Scene) : List Char → Scene × List Event
  | [] => (scene, [])
  | c :: cs =>
    let (panel, drawn) := scene.panel.print (UInt8.ofNat (c.toNat % 256))
    let (after, events) := { scene with panel }.print cs
    (after, drawn ++ events)

/-- Moves the cursor, first its column and then its row. -/
def move (scene : Scene) (x y : UInt8) : Scene × List Event :=
  let (panel, first) := scene.panel.moveX x
  let (panel, second) := panel.moveY y
  ({ scene with panel }, first ++ second)

end Scene

def Comparison.holds : Comparison → UInt8 → UInt8 → Bool
  | .greater, a, b => a > b
  | .less, a, b => a < b
  | .equal, a, b => a = b
  | .notEqual, a, b => a ≠ b

/-- The statements still to come, and the present scene. -/
structure Situation where
  rest : List Statement
  scene : Scene

namespace Situation

def initial (p : Program) (geometry : Geometry) : Situation :=
  ⟨p, { panel := { geometry } }⟩

/-- Evaluates one statement, which comes before `rest`. -/
def evaluate (s : Statement) (rest : List Statement) (scene : Scene) : Situation × List Event :=
  match s with
  | .declare name value =>
    match Variable.ofName? name with
    | some v => (⟨rest, scene.assign v (lowByte value)⟩, [])
    | none => (⟨rest, scene⟩, [])
  | .assign name op e =>
    match Variable.ofName? name with
    | some v =>
      match scene.assigned? v op e with
      | some value => (⟨rest, scene.assign v value⟩, [])
      | none => (⟨rest, scene⟩, [])
    | none => (⟨rest, scene⟩, [])
  | .branch left comparison right body =>
    match scene.lookup? left with
    | some value =>
      if comparison.holds value (lowByte right) then (⟨body ++ rest, scene⟩, [])
      else (⟨rest, scene⟩, [])
    | none => (⟨rest, scene⟩, [])
  | .loop body => (⟨body ++ .loop body :: rest, scene⟩, [])
  | .pixel x y =>
    match scene.coordinate? x, scene.coordinate? y with
    | some a, some b => (⟨rest, scene⟩, [.pixel a b])
    | _, _ => (⟨rest, scene⟩, [])
  | .print text =>
    let (scene, events) := scene.print text.toList
    (⟨rest, scene⟩, events)
  | .clear =>
    let (panel, events) := scene.panel.clear
    (⟨rest, { scene with panel }⟩, events)
  | .move x y =>
    match scene.column? x with
    | some a =>
      let (scene, events) := scene.move a (lowByte y)
      (⟨rest, scene⟩, events)
    | none => (⟨rest, scene⟩, [])
  | .delay _ => (⟨rest, scene⟩, [])

/-- One step; there is none once every statement has been evaluated. -/
def step? (s : Situation) : Option (Situation × List Event) :=
  match s.rest with
  | [] => none
  | first :: rest => some (evaluate first rest s.scene)

/-- The events of up to `n` steps. -/
def trace (n : Nat) (s : Situation) : List Event :=
  match n with
  | 0 => []
  | n + 1 =>
    match s.step? with
    | none => []
    | some (next, events) => events ++ next.trace n

end Situation

end Microboard
