import Microboard.Program.Reading
import Microboard.Proofs.Json.Form

/-!
# Roles

A value is read in a role: as an expression, as a statement, as a body. The role decides which kind
a tag tells, and the kind and the arguments of a node then decide what the node is: `of?_tagged`
for a node by name, `of?_positional` for one by position.
-/

namespace Microboard

open Json (Form)

namespace Program

/-- What a value is read as. -/
inductive Role where
  | expression
  /-- A statement inside another one. -/
  | statement
  /-- A statement of the program itself. -/
  | outermost
  | body
  | program

namespace Role

def Value : Role → Type
  | .expression => Expression
  | .statement | .outermost => Statement
  | .body => List Statement
  | .program => Program

/-- What a reading is in a role. -/
def of? : (role : Role) → Reading → Option role.Value
  | .expression => Reading.expression
  | .statement => Reading.statement
  | .outermost => Reading.outermost
  | .body => Reading.body
  | .program => Reading.program

/-- The kind that the tag of a node tells. Bodies and programs are no nodes. -/
def kind? : Role → Reading → Option String
  | .expression => Reading.kind? expressionKinds
  | .statement => Reading.kind? statementKinds
  | .outermost => Reading.text
  | .body | .program => fun _ => none

/-- What a node of a kind is in a role. -/
def node? : (role : Role) → String → Form Reading → Option role.Value
  | .expression => Reading.expressionOf?
  | .statement | .outermost => Reading.statementOf?
  | .body | .program => fun _ _ => none

end Role

/-- In a role, a value as a tag tells a kind: by its name, or by its number where that is
    allowed. -/
def Tag (role : Role) (tag : Json) (type : String) : Prop :=
  role.kind? (Reading.ofJson tag) = some type

end Program

open Program (Role Tag)

namespace Reading

theorem ofItems_eq (items : List Json) : ofItems items = items.map ofJson := by
  induction items with
  | nil => rfl
  | cons item items ih => rw [ofItems, ih, List.map_cons]

theorem ofFields_eq (fields : List (Json.Literal × Json)) :
    ofFields fields = fields.map fun field => (field.1, ofJson field.2) := by
  induction fields with
  | nil => rfl
  | cons field fields ih => rw [ofFields, ih, List.map_cons]

/-! ### Forms in a role -/

theorem of?_ofForm (role : Role) (form : Form Reading) :
    role.of? (ofForm form) =
      (form.tagged? role.kind?).bind fun (type, arguments) => role.node? type arguments := by
  cases role with
  | body | program => exact (Option.bind_fun_none _).symm
  | _ => rfl

/-- A form stands for nothing but what it is in the roles. -/
theorem ofForm_ext {f g : Form Reading}
    (h : ∀ role : Role, role.of? (ofForm f) = role.of? (ofForm g)) : ofForm f = ofForm g := by
  have hexpression := h .expression
  have hstatement := h .statement
  have houtermost := h .outermost
  simp only [Role.of?, ofForm] at hexpression hstatement houtermost
  simp only [ofForm, hexpression, hstatement, houtermost]

theorem of?_object (role : Role) (fields : List (Json.Literal × Json)) :
    role.of? (ofJson (.object fields)) = role.of? (ofForm (.named (ofFields fields))) := by
  cases role with
  | _ => rfl

/-! ### Nodes in a role -/

def parts (fields : List (String × Json)) : List (String × Reading) :=
  fields.map fun (name, value) => (name, ofJson value)

theorem ofFields_spelled (fields : List (String × Json)) :
    ofFields (Form.spelled fields) = Form.spelled (parts fields) := by
  rw [ofFields_eq, Form.spelled, Form.spelled, parts, List.map_map, List.map_map]
  rfl

variable {role : Role} {tag : Json} {type : String} (htag : Tag role tag type)
include htag

/-- The tag of a node by name is found, and its other fields are left. -/
theorem of?_tagged {fields : List (String × Json)} (h : "type" ∉ fields.map Prod.fst) :
    role.of? (ofJson (.record (("type", tag) :: fields))) =
      role.node? type (.record (parts fields)) := by
  have hnames : "type" ∉ (parts fields).map Prod.fst := by
    rwa [parts, List.map_map]
  have htagged : (Form.record (("type", ofJson tag) :: parts fields)).tagged? role.kind? =
      some (type, .record (parts fields)) := by
    rw [Form.tagged?_record _ _ hnames, htag]
    rfl
  have hfields : ofFields (Form.spelled (("type", tag) :: fields)) =
      Form.spelled (("type", ofJson tag) :: parts fields) := ofFields_spelled _
  rw [Json.record, ← Form.spelled, of?_object, hfields, ← Form.record, of?_ofForm, htagged]
  rfl

/-- The tag of a node by position is its first item. Such a node is no body. -/
theorem of?_positional (args : List Json) :
    role.of? (ofJson (.array (tag :: args))) = role.node? type (.positional (ofItems args)) := by
  have htagged : (Form.positional (ofItems (tag :: args))).tagged? role.kind? =
      some (type, .positional (ofItems args)) := by
    rw [ofItems, Form.tagged?, htag]
    rfl
  have hnode : role.of? (ofForm (.positional (ofItems (tag :: args)))) =
      role.node? type (.positional (ofItems args)) := by
    rw [of?_ofForm, htagged]
    rfl
  rw [← hnode]
  cases role with
  | body | program => cases htag
  | _ => rfl

end Reading

end Microboard
