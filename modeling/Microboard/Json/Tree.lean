import Microboard.Json.Token

/-!
# Values from tokens

A value and the sequence of its tokens determine each other. `Json.tokens` writes the sequence down,
and a `Builder` reads it back with a stack of the arrays and objects that are still open. Nesting is
not limited here.
-/

namespace Microboard.Json

/-! ### From a value to its tokens -/

mutual

def tokens : Json → List Token
  | .null => [.null]
  | .bool value => [.bool value]
  | .number value => [.number value]
  | .string value => [.string value]
  | .array items => .openArray :: itemTokens items ++ [.closeArray]
  | .object fields => .openObject :: fieldTokens fields ++ [.closeObject]

def itemTokens : List Json → List Token
  | [] => []
  | [item] => item.tokens
  | item :: items => item.tokens ++ .comma :: itemTokens items

def fieldTokens : List (Literal × Json) → List Token
  | [] => []
  | [(name, value)] => .string name :: .colon :: value.tokens
  | (name, value) :: fields =>
    .string name :: .colon :: (value.tokens ++ .comma :: fieldTokens fields)

end

/-! ### From tokens to a value -/

/-- An array or object that is still open around a value; its complete parts have the latest
    first. -/
inductive Frame where
  | array (before : List Json)
  | object (before : List (Literal × Json)) (name : Literal)

/-- What a builder has read and what may come next. -/
inductive Builder where
  /-- A value must come. -/
  | awaitValue (around : List Frame)
  /-- An array was opened: its first item or its end must come. -/
  | awaitItem (around : List Frame)
  /-- An object was opened: its first name or its end must come. -/
  | awaitField (around : List Frame)
  /-- Behind a comma in an object: a name must come. -/
  | awaitName (before : List (Literal × Json)) (around : List Frame)
  /-- Behind a name: a colon must come. -/
  | awaitColon (before : List (Literal × Json)) (name : Literal) (around : List Frame)
  /-- A value is complete: a comma or the end of what stands around it must come. -/
  | complete (value : Json) (around : List Frame)

namespace Builder

/-- Takes a token where a value must come. -/
def begin (around : List Frame) : Token → Option Builder
  | .null => some (.complete .null around)
  | .bool value => some (.complete (.bool value) around)
  | .number value => some (.complete (.number value) around)
  | .string value => some (.complete (.string value) around)
  | .openArray => some (.awaitItem around)
  | .openObject => some (.awaitField around)
  | _ => none

/-- Takes a token behind a complete value. -/
def close (value : Json) : List Frame → Token → Option Builder
  | .array before :: around, .comma => some (.awaitValue (.array (value :: before) :: around))
  | .array before :: around, .closeArray =>
    some (.complete (.array (value :: before).reverse) around)
  | .object before name :: around, .comma => some (.awaitName ((name, value) :: before) around)
  | .object before name :: around, .closeObject =>
    some (.complete (.object ((name, value) :: before).reverse) around)
  | _, _ => none

def take : Builder → Token → Option Builder
  | .awaitValue around, t => begin around t
  | .awaitItem around, .closeArray => some (.complete (.array []) around)
  | .awaitItem around, t => begin (.array [] :: around) t
  | .awaitField around, .closeObject => some (.complete (.object []) around)
  | .awaitField around, .string name => some (.awaitColon [] name around)
  | .awaitName before around, .string name => some (.awaitColon before name around)
  | .awaitColon before name around, .colon => some (.awaitValue (.object before name :: around))
  | .complete value around, t => close value around t
  | _, _ => none

/-- The value, when the tokens end here. -/
def finish : Builder → Option Json
  | .complete value [] => some value
  | _ => none

end Builder

def ofTokens? (ts : List Token) : Option Json := do
  let b ← ts.foldlM Builder.take (.awaitValue [])
  b.finish

/-! ### Texts -/

/-- Reads a text that holds one value and, but for blanks, nothing else. -/
def read? (text : String) : Option Json := do
  ofTokens? (← Token.scan? text.toList)

def compact (value : Json) : String :=
  String.ofList (value.tokens.flatMap Token.lexeme)

end Microboard.Json
