import Microboard.File
import Microboard.Json.Form
import Microboard.Json.Integer
import Microboard.Json.Tree
import Microboard.Settings
import Microboard.Text.Blank
import Microboard.Text.Numeral

/-!
# Reading settings

Settings are read from an object, or from an array of their fields in order. A missing field keeps
its default, and the same holds for the geometry of the screen inside. Every field has an integer
type of its own, and a value outside of it is refused. An environment value can override the steps
per tick afterwards.
-/

namespace Microboard

/-- What `read?` makes of a value, or the default if there is none. -/
def Json.fieldOr {α : Type} (fallback : α) (read? : Json → Option α) : Option Json → Option α
  | none => some fallback
  | some value => read? value

def Geometry.ofJson? (value : Json) : Option Geometry := do
  let fallback : Geometry := {}
  let [width, height, lineHeight, glyphAdvance, topLine] ← (← value.form?).arguments?
      ["width", "height", "line_height", "glyph_advance", "top_line"]
    | none
  return {
    width := ← Json.fieldOr fallback.width Json.uint16? width
    height := ← Json.fieldOr fallback.height Json.uint16? height
    lineHeight := ← Json.fieldOr fallback.lineHeight Json.uint16? lineHeight
    glyphAdvance := ← Json.fieldOr fallback.glyphAdvance Json.uint16? glyphAdvance
    topLine := ← Json.fieldOr fallback.topLine Json.uint16? topLine }

namespace Settings

def ofJson? (value : Json) : Option Settings := do
  let fallback : Settings := {}
  let [stepsPerTick, adcDefault, screen] ← (← value.form?).arguments?
      ["steps_per_tick", "adc_default", "screen"]
    | none
  return {
    stepsPerTick := ← Json.fieldOr fallback.stepsPerTick Json.uint32? stepsPerTick
    adcDefault := ← Json.fieldOr fallback.adcDefault Json.int64? adcDefault
    screen := ← Json.fieldOr fallback.screen Geometry.ofJson? screen }

/-- Why settings could not be had. -/
inductive LoadError where
  | unreadable (cause : FileError)
  /-- The text is not that of settings. -/
  | malformed
deriving DecidableEq, Repr

def LoadError.message : LoadError → String
  | .unreadable cause => "io error: " ++ cause.message
  | .malformed => "serialize error"

def read (text : String) : Except LoadError Settings :=
  match (Json.read? text).bind ofJson? with
  | some settings => .ok settings
  | none => .error .malformed

def ofFile (file : File) : Except LoadError Settings := do
  read (← file.text.mapError .unreadable)

/-! ### Override -/

/-- Settings whose steps per tick an environment value replaces: a positive numeral of 32 bits with
    any blanks around it. Every other value is ignored. -/
def override (value : Option String) (s : Settings) : Settings :=
  match value.bind fun raw => Text.numeral? UInt32.size (Text.trim raw.toList) with
  | some steps => if steps = 0 then s else { s with stepsPerTick := UInt32.ofNat steps }
  | none => s

end Settings

end Microboard
