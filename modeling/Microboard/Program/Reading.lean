import Microboard.Json.Form
import Microboard.Json.Integer
import Microboard.Json.Tree
import Microboard.Program.Basic

/-!
# Reading programs

A JSON value can stand for several things in a program: a string for a name, a number for a literal,
an array for an expression, a statement or a body. `Reading.ofJson` goes through a value once, from
the inside out, and notes everything that it can stand for. `Program.read?` then takes the text's
value as a program. The text as a whole must denote something, and its nesting is limited.

A node tells its kind by name, or else by the number of the kind, counted from zero. Only the
statements that are items of the program itself must tell it by name.
-/

namespace Microboard

/-- What a JSON value can stand for. -/
structure Reading where
  text : Option String := none
  /-- The symbol of an operator. -/
  symbol : Option String := none
  literal : Option Int64 := none
  expression : Option Expression := none
  /-- A statement inside another one. -/
  statement : Option Statement := none
  /-- A statement of the program itself. -/
  outermost : Option Statement := none
  body : Option (List Statement) := none
  program : Option Program := none

def Json.isNothing : Json → Bool
  | .null | .object [] => true
  | _ => false

/-- The symbol of an operator: a string, or the name of a field that is alone and holds nothing. -/
def Json.symbol? : Json → Option String
  | .string s => s.text?
  | .object [(name, value)] => if value.isNothing then name.text? else none
  | _ => none

def AssignOp.ofSymbol? (s : String) : Option AssignOp :=
  [AssignOp.set, .add, .subtract].find? (·.symbol == s)

def Comparison.ofSymbol? (s : String) : Option Comparison :=
  [Comparison.greater, .less, .equal, .notEqual].find? (·.symbol == s)

def Sign.ofSymbol? (s : String) : Option Sign :=
  [Sign.plus, .minus].find? (·.symbol == s)

/-- The kinds of expressions that are nodes, in the order of their numbers. -/
def expressionKinds : List String :=
  ["UnaryExpr", "BinaryExpr"]

/-- The kinds of statements, in the order of their numbers. -/
def statementKinds : List String :=
  ["VarDecl", "Assignment", "If", "While", "ScreenPixel", "ScreenPrint", "ScreenClear",
    "ScreenMove", "Delay"]

namespace Reading

/-- The kind that a tag tells: the one that it names, or the one among `kinds` whose number it
    is. -/
def kind? (kinds : List String) (tag : Reading) : Option String :=
  tag.text <|> do kinds[← (← tag.literal).toInt.toNat?]?

/-- The expression that a tagged form with the readings of its parts is. -/
def expressionOf? (tag : String) (form : Json.Form Reading) : Option Expression :=
  match tag with
  | "UnaryExpr" => do
    let [op, operand] ← form.arguments? ["op", "expr"] | none
    guard ((← op.bind symbol) = "-")
    return .negation (← operand.bind expression)
  | "BinaryExpr" => do
    let [base, sign, amount] ← form.arguments? ["left", "op", "right"] | none
    return .shifted (← base.bind text) (← Sign.ofSymbol? (← sign.bind symbol))
      (← amount.bind literal)
  | _ => none

/-- The body of a loop or a conditional. One that is not written is empty. -/
def bodyOf? : Option Reading → Option (List Statement)
  | none => some []
  | some body => body.body

/-- The statement that a tagged form with the readings of its parts is. -/
def statementOf? (tag : String) (form : Json.Form Reading) : Option Statement :=
  match tag with
  | "VarDecl" => do
    let [name, value] ← form.arguments? ["name", "value"] | none
    return .declare (← name.bind text) (← value.bind literal)
  | "Assignment" => do
    let [name, op, value] ← form.arguments? ["name", "op", "value"] | none
    return .assign (← name.bind text) (← AssignOp.ofSymbol? (← op.bind symbol))
      (← value.bind expression)
  | "If" => do
    let [left, op, right, body] ← form.arguments? ["left", "op", "right", "body"] | none
    return .branch (← left.bind text) (← Comparison.ofSymbol? (← op.bind symbol))
      (← right.bind literal) (← bodyOf? body)
  | "While" => do
    let [body] ← form.arguments? ["body"] | none
    return .loop (← bodyOf? body)
  | "ScreenPixel" => do
    let [x, y] ← form.arguments? ["x", "y"] | none
    return .pixel (← x.bind expression) (← y.bind expression)
  | "ScreenPrint" => do
    let [value] ← form.arguments? ["value"] | none
    return .print (← value.bind text)
  | "ScreenClear" => do
    let [] ← form.arguments? [] | none
    return .clear
  | "ScreenMove" => do
    let [x, y] ← form.arguments? ["x", "y"] | none
    return .move (← x.bind expression) (← y.bind literal)
  | "Delay" => do
    let [cycles] ← form.arguments? ["cycles"] | none
    return .delay (← cycles.bind literal)
  | _ => none

/-- What a form can stand for as a node. -/
def ofForm (form : Json.Form Reading) : Reading where
  expression := do
    let (type, arguments) ← form.tagged? (kind? expressionKinds)
    expressionOf? type arguments
  statement := do
    let (type, arguments) ← form.tagged? (kind? statementKinds)
    statementOf? type arguments
  outermost := do
    let (type, arguments) ← form.tagged? Reading.text
    statementOf? type arguments

mutual

/-- Everything that a JSON value can stand for. -/
def ofJson : Json → Reading
  | .null | .bool _ => {}
  | .number n =>
    let literal := Json.int64? (.number n)
    { literal, expression := literal.map .literal }
  | .string s => { text := s.text?, symbol := s.text?, expression := s.text?.map .name }
  | .array items =>
    let parts := ofItems items
    { ofForm (.positional parts) with
      body := parts.mapM Reading.statement
      program := parts.mapM Reading.outermost }
  | .object fields =>
    { ofForm (.named (ofFields fields)) with symbol := Json.symbol? (.object fields) }

def ofItems : List Json → List Reading
  | [] => []
  | item :: items => ofJson item :: ofItems items

def ofFields : List (Json.Literal × Json) → List (Json.Literal × Reading)
  | [] => []
  | (name, value) :: fields => (name, ofJson value) :: ofFields fields

end

end Reading

namespace Program

/-- How deep arrays and objects may nest in the text of a program. -/
def nestingLimit : Nat := 127

def ofJson? (value : Json) : Option Program :=
  if value.depth ≤ nestingLimit && value.denotes then (Reading.ofJson value).program else none

def read? (text : String) : Option Program := do
  ofJson? (← Json.read? text)

end Program

end Microboard
