import Microboard.Json.Basic

/-!
# Forms

A record with known fields can be written by name, as an object, or by position, as an array. By
name, the fields come in any order and unknown ones are ignored, but a known field must not come
twice. By position, fields may be missing at the end, and there must be no surplus.
-/

namespace Microboard.Json

/-- A record as it is written, with parts of type `α`. -/
inductive Form (α : Type) where
  | positional (parts : List α)
  | named (parts : List (Literal × α))

namespace Form

def parts {α : Type} (name : String) (fields : List (Literal × α)) : List α :=
  (fields.filter fun field => field.1.text? = some name).map (·.2)

/-- The parts of the fields with the given names, in that order, each absent if it is not written.
    `none` if the form is no record with these fields. -/
def arguments? {α : Type} (names : List String) : Form α → Option (List (Option α))
  | .positional given =>
    if given.length ≤ names.length then
      some (given.map some ++ List.replicate (names.length - given.length) none)
    else none
  | .named fields =>
    if fields.all (·.1.text?.isSome) then
      names.mapM fun name =>
        match parts name fields with
        | [] => some none
        | [part] => some (some part)
        | _ => none
    else none

/-- Splits off the tag, which `text?` reads: the first part by position, or the one field named
    `type`. -/
def tagged? {α : Type} (text? : α → Option String) : Form α → Option (String × Form α)
  | .positional [] => none
  | .positional (tag :: rest) => do return (← text? tag, .positional rest)
  | .named fields =>
    match parts "type" fields with
    | [tag] => do
      return (← text? tag, .named (fields.filter fun field => field.1.text? ≠ some "type"))
    | _ => none

end Form

def form? : Json → Option (Form Json)
  | .array items => some (.positional items)
  | .object fields => some (.named fields)
  | _ => none

end Microboard.Json
