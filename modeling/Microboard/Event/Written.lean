import Microboard.Event
import Microboard.Json.Tree

/-!
# Events as JSON

An event is an object with its kind and its data. A log of events has one of them per line.
-/

namespace Microboard

def Event.toJson : Event → Json
  | .clearScreen => .record [("event", .text "clear_screen")]
  | .glyph character x y =>
    .record
      [("event", .text "draw_glyph_or_newline"), ("ch", .nat character.toNat), ("x", .nat x.toNat),
        ("y", .nat y.toNat)]
  | .pixel x y =>
    .record [("event", .text "draw_pixel"), ("x", .nat x.toNat), ("y", .nat y.toNat)]
  | .serial byte => .record [("event", .text "serial_byte"), ("byte", .nat byte.toNat)]
  | .spi byte => .record [("event", .text "spi_byte"), ("byte", .nat byte.toNat)]
  | .cursor x y =>
    .record [("event", .text "cursor_moved"), ("x", .nat x.toNat), ("y", .nat y.toNat)]

/-- The log of events: the compact text of each, on a line of its own. -/
def eventLog (events : List Event) : String :=
  String.join (events.map fun e => e.toJson.compact ++ "\n")

end Microboard
