import Microboard.Json.Literal
import Microboard.Json.Number

/-!
# JSON values

A value keeps its fields in the order in which they are written, repeated names included, so that
each reader decides for itself what it makes of them.
-/

namespace Microboard

inductive Json where
  | null
  | bool (value : Bool)
  | number (value : Json.Number)
  | string (value : Json.Literal)
  | array (items : List Json)
  | object (fields : List (Json.Literal × Json))
deriving Repr, Inhabited

namespace Json

def text (s : String) : Json :=
  .string (.ofText s)

def int (i : Int) : Json :=
  .number (.ofInt i)

def nat (n : Nat) : Json :=
  .int n

def record (fields : List (String × Json)) : Json :=
  .object (fields.map fun (name, value) => (.ofText name, value))

def bytes (bs : List UInt8) : Json :=
  .array (bs.map fun b => .nat b.toNat)

def orNull : Option Json → Json
  | some value => value
  | none => .null

def text? : Json → Option String
  | .string s => s.text?
  | _ => none

def int? : Json → Option Int
  | .number n => n.toInt?
  | _ => none

/-- The value of the first field with a name. -/
def field? (name : String) : Json → Option Json
  | .object fields => (fields.find? fun field => field.1.text? = some name).map (·.2)
  | _ => none

/-! ### Nesting and denotation -/

mutual

/-- How many arrays and objects stand around the innermost place of the value. -/
def depth : Json → Nat
  | .array items => 1 + depthOfItems items
  | .object fields => 1 + depthOfFields fields
  | _ => 0

def depthOfItems : List Json → Nat
  | [] => 0
  | item :: items => max item.depth (depthOfItems items)

def depthOfFields : List (Literal × Json) → Nat
  | [] => 0
  | (_, value) :: fields => max value.depth (depthOfFields fields)

end

mutual

/-- Whether every part of the value denotes something: every string and every name a text, and every
    number a floating point number. -/
def denotes : Json → Bool
  | .null | .bool _ => true
  | .number n => !n.overflows
  | .string s => s.text?.isSome
  | .array items => itemsDenote items
  | .object fields => fieldsDenote fields

def itemsDenote : List Json → Bool
  | [] => true
  | item :: items => item.denotes && itemsDenote items

def fieldsDenote : List (Literal × Json) → Bool
  | [] => true
  | (name, value) :: fields => name.text?.isSome && value.denotes && fieldsDenote fields

end

end Json

end Microboard
