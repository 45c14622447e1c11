/-!
# Events

What a running board lets the outside see, in the order in which it happens.
-/

namespace Microboard

/-- One observable effect. -/
inductive Event where
  /-- The panel is wiped. -/
  | clearScreen
  /-- A character is drawn at the cursor, or a line feed breaks the line there. The position is that
      of the cursor before it moves on. -/
  | glyph (character : UInt8) (x y : UInt16)
  /-- A single pixel is drawn. -/
  | pixel (x y : UInt8)
  /-- A byte leaves through the serial line. -/
  | serial (byte : UInt8)
  /-- A byte leaves through the SPI line. -/
  | spi (byte : UInt8)
  /-- The cursor has been put at a position. -/
  | cursor (x y : UInt16)
deriving DecidableEq, Repr

end Microboard
