import Microboard.Json.Tree
import Microboard.Settings

/-!
# Settings as JSON

Settings are written as an object with all their fields in a fixed order, and so is the geometry of
the screen inside.
-/

namespace Microboard

namespace Geometry

def fields (g : Geometry) : List (String × UInt16) :=
  [("width", g.width), ("height", g.height), ("line_height", g.lineHeight),
    ("glyph_advance", g.glyphAdvance), ("top_line", g.topLine)]

def toJson (g : Geometry) : Json :=
  .record (g.fields.map fun (name, value) => (name, .nat value.toNat))

end Geometry

namespace Settings

def toJson (s : Settings) : Json :=
  .record
    [("steps_per_tick", .nat s.stepsPerTick.toNat), ("adc_default", .int s.adcDefault.toInt),
      ("screen", s.screen.toJson)]

def text (s : Settings) : String :=
  s.toJson.compact

end Settings

end Microboard
