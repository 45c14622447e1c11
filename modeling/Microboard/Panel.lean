import Microboard.Event

/-!
# The panel's text cursor

The panel draws text at a cursor that moves on by a fixed advance, wraps to a new line at the right
edge, and starts over on a cleared panel once it reaches the bottom. The cursor saturates at the
largest coordinate instead of wrapping around.
-/

namespace Microboard

/-- Sizes of the panel and of its text, in pixels. -/
structure Geometry where
  width : UInt16 := 320
  height : UInt16 := 240
  lineHeight : UInt16 := 20
  glyphAdvance : UInt16 := 10
  /-- Where the cursor stands after the panel is cleared. -/
  topLine : UInt16 := 20
deriving DecidableEq, Repr

structure Panel where
  geometry : Geometry
  x : UInt16 := 0
  y : UInt16 := geometry.topLine
deriving DecidableEq, Repr

namespace Panel

/-- Sum of two coordinates, or the largest coordinate if the sum is larger still. -/
def advance (a b : UInt16) : UInt16 :=
  UInt16.ofNat (min (a.toNat + b.toNat) (UInt16.size - 1))

/-- The byte that breaks a line. -/
def lineFeed : UInt8 := 10

/-- Puts the cursor back to where it stands on a cleared panel. -/
def home (panel : Panel) : Panel :=
  { panel with x := 0, y := panel.geometry.topLine }

def nextLine (panel : Panel) : Panel :=
  { panel with x := 0, y := advance panel.y panel.geometry.lineHeight }

/-- Moves the cursor past a character, without regard to the edges of the panel. -/
def pass (character : UInt8) (panel : Panel) : Panel :=
  if character = lineFeed then panel.nextLine
  else { panel with x := advance panel.x panel.geometry.glyphAdvance }

/-- Breaks the line if the cursor has reached the right edge. -/
def wrap (panel : Panel) : Panel :=
  if panel.geometry.width ≤ panel.x then panel.nextLine else panel

/-- Clears the panel if the cursor has reached the bottom. -/
def turn (panel : Panel) : Panel × List Event :=
  if panel.geometry.height ≤ panel.y then
    ({ panel with y := panel.geometry.topLine }, [.clearScreen])
  else (panel, [])

/-- Draws a character at the cursor and moves on. -/
def print (character : UInt8) (panel : Panel) : Panel × List Event :=
  let (after, events) := (panel.pass character).wrap.turn
  (after, .glyph character panel.x panel.y :: events)

def clear (panel : Panel) : Panel × List Event :=
  (panel.home, [.clearScreen])

def moveX (x : UInt8) (panel : Panel) : Panel × List Event :=
  let moved := { panel with x := x.toUInt16 }
  (moved, [.cursor moved.x moved.y])

def moveY (y : UInt8) (panel : Panel) : Panel × List Event :=
  let moved := { panel with y := y.toUInt16 }
  (moved, [.cursor moved.x moved.y])

end Panel

end Microboard
