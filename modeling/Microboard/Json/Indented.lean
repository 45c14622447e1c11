import Microboard.Json.Tree

/-!
# Indented JSON

The indented form gives each item and each field a line of its own, two spaces further in than the
line that opens the array or object. Empty arrays and objects stay on one line.
-/

namespace Microboard.Json

/-- A line break with the indentation of a level. -/
def lineBreak (level : Nat) : List Char :=
  '\n' :: List.replicate (2 * level) ' '

mutual

/-- The text of a value whose first line stands at a level. -/
def indentedAt (level : Nat) : Json → List Char
  | .array (item :: items) =>
    '[' :: indentedItems (level + 1) (item :: items) ++ lineBreak level ++ [']']
  | .object (field :: fields) =>
    '\x7b' :: indentedFields (level + 1) (field :: fields) ++ lineBreak level ++ ['\x7d']
  | value => value.tokens.flatMap Token.lexeme

def indentedItems (level : Nat) : List Json → List Char
  | [] => []
  | [item] => lineBreak level ++ indentedAt level item
  | item :: items => lineBreak level ++ indentedAt level item ++ ',' :: indentedItems level items

def indentedFields (level : Nat) : List (Literal × Json) → List Char
  | [] => []
  | [(name, value)] => lineBreak level ++ name.lexeme ++ ':' :: ' ' :: indentedAt level value
  | (name, value) :: fields =>
    lineBreak level ++ name.lexeme ++ ':' :: ' ' :: indentedAt level value
      ++ ',' :: indentedFields level fields

end

def indented (value : Json) : String :=
  String.ofList (indentedAt 0 value)

end Microboard.Json
