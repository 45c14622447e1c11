import Microboard.Text.Radix

/-!
# Programs

The language of the board draws on its panel. It has three byte variables, assignments, a comparison
of a variable with a literal, and endless loops. A program names its variables by any text; which
names are known, and which expressions may stand where, is for the compiler to say.
-/

namespace Microboard

/-- How an assignment combines its value with the variable. -/
inductive AssignOp where
  | set
  | add
  | subtract
deriving DecidableEq, Repr

inductive Comparison where
  | greater
  | less
  | equal
  | notEqual
deriving DecidableEq, Repr

inductive Sign where
  | plus
  | minus
deriving DecidableEq, Repr

/-- An expression. A sum or difference is always one of a name and a literal. -/
inductive Expression where
  | name (name : String)
  | literal (value : Int64)
  | negation (operand : Expression)
  | shifted (base : String) (sign : Sign) (amount : Int64)
deriving DecidableEq, Repr, Inhabited

/-- A statement. The only loop is the endless one. -/
inductive Statement where
  | declare (name : String) (value : Int64)
  | assign (name : String) (op : AssignOp) (value : Expression)
  | branch (left : String) (comparison : Comparison) (right : Int64) (body : List Statement)
  | loop (body : List Statement)
  | pixel (x y : Expression)
  | print (text : String)
  | clear
  | move (x : Expression) (y : Int64)
  | delay (cycles : Int64)
deriving Repr, Inhabited

abbrev Program := List Statement

/-! ### Names and texts -/

def AssignOp.symbol : AssignOp → String
  | .set => "="
  | .add => "+="
  | .subtract => "-="

def Comparison.symbol : Comparison → String
  | .greater => ">"
  | .less => "<"
  | .equal => "=="
  | .notEqual => "!="

def Sign.symbol : Sign → String
  | .plus => "+"
  | .minus => "-"

def literalText (value : Int64) : String :=
  Text.signedDecimal value.toInt

/-- The expression as a message shows it. -/
def Expression.text : Expression → String
  | .name given => given
  | .literal value => literalText value
  | .negation operand => "-" ++ operand.text
  | .shifted base sign amount => base ++ sign.symbol ++ literalText amount

namespace Statement

def kind : Statement → String
  | .declare .. => "VarDecl"
  | .assign .. => "Assignment"
  | .branch .. => "If"
  | .loop _ => "While"
  | .pixel .. => "ScreenPixel"
  | .print _ => "ScreenPrint"
  | .clear => "ScreenClear"
  | .move .. => "ScreenMove"
  | .delay _ => "Delay"

/-- The expressions in the statement itself, in order. -/
def expressions : Statement → List Expression
  | .assign _ _ value => [value]
  | .pixel x y => [x, y]
  | .move x _ => [x]
  | _ => []

def body : Statement → List Statement
  | .branch _ _ _ body | .loop body => body
  | _ => []

end Statement

/-! ### Outline -/

/-- A statement as an outline shows it: how deep it stands, its kind and its expressions. -/
structure OutlineEntry where
  depth : Nat
  kind : String
  expressions : List String
deriving DecidableEq, Repr

mutual

/-- The outline of a statement at a depth: the statement itself, and behind it its body. -/
def Statement.outline (depth : Nat) : Statement → List OutlineEntry
  | .branch left comparison right body =>
    ⟨depth, (Statement.branch left comparison right body).kind, []⟩ :: outlineAt (depth + 1) body
  | .loop body => ⟨depth, (Statement.loop body).kind, []⟩ :: outlineAt (depth + 1) body
  | s => [⟨depth, s.kind, s.expressions.map Expression.text⟩]

def outlineAt (depth : Nat) : List Statement → List OutlineEntry
  | [] => []
  | s :: rest => s.outline depth ++ outlineAt depth rest

end

def Program.outline (p : Program) : List OutlineEntry :=
  outlineAt 0 p

end Microboard
