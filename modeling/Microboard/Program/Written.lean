import Microboard.Json.Integer
import Microboard.Json.Tree
import Microboard.Program.Basic

/-!
# Programs as JSON

How a program is written: an array of statements, each an object whose `type` names its kind. A name
is a string and a literal a number; only a negation and a sum are objects. Bodies are always
written, also when they are empty.
-/

namespace Microboard

/-- An object with a `type` and further fields. -/
def Json.tagged (type : String) (fields : List (String × Json)) : Json :=
  .record (("type", .text type) :: fields)

def Expression.toJson : Expression → Json
  | .name given => .text given
  | .literal value => .int64 value
  | .negation operand =>
    .tagged "UnaryExpr" [("op", .text "-"), ("expr", operand.toJson)]
  | .shifted base sign amount =>
    .tagged "BinaryExpr"
      [("left", .text base), ("op", .text sign.symbol), ("right", .int64 amount)]

mutual

def Statement.toJson : Statement → Json
  | .declare name value =>
    .tagged "VarDecl" [("name", .text name), ("value", .int64 value)]
  | .assign name op value =>
    .tagged "Assignment" [("name", .text name), ("op", .text op.symbol), ("value", value.toJson)]
  | .branch left comparison right body =>
    .tagged "If"
      [("left", .text left), ("op", .text comparison.symbol), ("right", .int64 right),
        ("body", .array (statementsToJson body))]
  | .loop body => .tagged "While" [("body", .array (statementsToJson body))]
  | .pixel x y => .tagged "ScreenPixel" [("x", x.toJson), ("y", y.toJson)]
  | .print text => .tagged "ScreenPrint" [("value", .text text)]
  | .clear => .tagged "ScreenClear" []
  | .move x y => .tagged "ScreenMove" [("x", x.toJson), ("y", .int64 y)]
  | .delay cycles => .tagged "Delay" [("cycles", .int64 cycles)]

def statementsToJson : List Statement → List Json
  | [] => []
  | s :: rest => s.toJson :: statementsToJson rest

end

namespace Program

def toJson (p : Program) : Json :=
  .array (statementsToJson p)

def text (p : Program) : String :=
  (toJson p).compact

end Program

end Microboard
