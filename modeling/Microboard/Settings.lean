import Microboard.Panel

/-!
# Settings

What can be chosen about a board before it is built: how many steps make a tick, what the analog
input reads until a source is connected, and the geometry of the panel.
-/

namespace Microboard

structure Settings where
  /-- Steps that one tick of the host runs at most. -/
  stepsPerTick : UInt32 := 280
  /-- What the analog input reads while no source is connected. -/
  adcDefault : Int64 := 2048
  screen : Geometry := {}
deriving DecidableEq, Repr

end Microboard
