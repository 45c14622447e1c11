import Mathlib.Data.Option.Basic
import Microboard.Proofs.Program.Roles

/-!
# Nodes in any form

The kind of a node and its arguments decide what it is in a role: `node_congr`. Neither the order of
its fields, nor a field that its kind does not have, nor whether it is written by name or by
position makes a difference, and an empty body is as good as none. Of a field that is itself a node
or a body, only what it is in that role matters: `node_field`.
-/

namespace Microboard

open Json (Form)

namespace Program

/-- The names of the fields of a node of a kind, in order. -/
def fieldNames? : String → Option (List String)
  | "UnaryExpr" => some ["op", "expr"]
  | "BinaryExpr" => some ["left", "op", "right"]
  | "VarDecl" => some ["name", "value"]
  | "Assignment" => some ["name", "op", "value"]
  | "If" => some ["left", "op", "right", "body"]
  | "While" => some ["body"]
  | "ScreenPixel" | "ScreenMove" => some ["x", "y"]
  | "ScreenPrint" => some ["value"]
  | "ScreenClear" => some []
  | "Delay" => some ["cycles"]
  | _ => none

/-- The role of a field of a node, if it holds a node or a body. -/
def fieldRole? : String → String → Option Role
  | "UnaryExpr", "expr" | "Assignment", "value" | "ScreenPixel", "x" | "ScreenPixel", "y"
  | "ScreenMove", "x" => some .expression
  | "If", "body" | "While", "body" => some .body
  | _, _ => none

/-- The kinds of nodes that have a body; it is their last field. -/
def HasBody (type : String) : Prop :=
  type = "If" ∨ type = "While"

theorem fieldNames?_distinct {type : String} {names : List String}
    (h : fieldNames? type = some names) : "type" ∉ names ∧ names.Nodup := by
  unfold fieldNames? at h
  split at h
  case h_12 => cases h
  all_goals
    cases h
    decide

theorem HasBody.fieldNames? {type : String} (h : HasBody type) :
    ∃ names, Program.fieldNames? type = some (names ++ ["body"]) ∧ "body" ∉ names := by
  rcases h with rfl | rfl
  · exact ⟨["left", "op", "right"], rfl, by decide⟩
  · exact ⟨[], rfl, by decide⟩

theorem fieldRole?_mem {type name : String} {inner : Role} (h : fieldRole? type name = some inner) :
    ∃ names, fieldNames? type = some names ∧ name ∈ names := by
  unfold fieldRole? at h
  split at h
  case h_8 => cases h
  all_goals exact ⟨_, rfl, by decide⟩

end Program

open Program (Role fieldNames? fieldRole? HasBody)

namespace Reading

/-! ### Nodes -/

section

variable {role : Role} {type : String} {f g : Form Reading}

theorem node_ext (hexpression : expressionOf? type f = expressionOf? type g)
    (hstatement : statementOf? type f = statementOf? type g) :
    role.node? type f = role.node? type g := by
  cases role with
  | expression => exact hexpression
  | statement | outermost => exact hstatement
  | body | program => rfl

theorem node_congr
    (h : ∀ names, fieldNames? type = some names → f.arguments? names = g.arguments? names) :
    role.node? type f = role.node? type g := by
  apply node_ext
  · unfold expressionOf?
    split
    · simp only [h _ rfl]
    · simp only [h _ rfl]
    · rfl
  · unfold statementOf?
    split
    case h_10 => rfl
    all_goals simp only [h _ rfl]

/-- An empty body is as good as none. -/
theorem node_body (hbody : HasBody type) {names : List String}
    (hnames : fieldNames? type = some names) {given : Option (List (Option Reading))}
    {empty : Reading} (hempty : empty.body = some [])
    (hf : f.arguments? names = given.map (· ++ [none]))
    (hg : g.arguments? names = given.map (· ++ [some empty])) :
    role.node? type f = role.node? type g := by
  have hnone : bodyOf? none = some [] := rfl
  have hsome : bodyOf? (some empty) = some [] := hempty
  rcases hbody with rfl | rfl
  · cases hnames
    refine node_ext rfl ?_
    simp only [statementOf?, hf, hg]
    -- In front of the body there must be three arguments.
    rcases given with _ | _ | ⟨left, _ | ⟨op, _ | ⟨right, _ | ⟨more, _ | ⟨most, given⟩⟩⟩⟩⟩
    case some.cons.cons.cons.nil =>
      simp only [Option.map_some, List.cons_append, List.nil_append, Option.bind_eq_bind,
        Option.bind_some, hnone, hsome]
    all_goals rfl
  · cases hnames
    refine node_ext rfl ?_
    simp only [statementOf?, hf, hg]
    rcases given with _ | _ | ⟨more, _ | ⟨most, given⟩⟩
    case some.nil =>
      simp only [Option.map_some, List.nil_append, Option.bind_eq_bind, Option.bind_some, hnone,
        hsome]
    all_goals rfl

/-- An argument that is a node or a body counts only as what it is in that role. -/
theorem node_set {name : String} {inner : Role} (hrole : fieldRole? type name = some inner)
    {names : List String} (hnames : fieldNames? type = some names)
    {given : Option (List (Option Reading))} {part other : Reading}
    (hsame : inner.of? part = inner.of? other)
    (hf : f.arguments? names = given.map (·.set (names.idxOf name) (some part)))
    (hg : g.arguments? names = given.map (·.set (names.idxOf name) (some other))) :
    role.node? type f = role.node? type g := by
  unfold fieldRole? at hrole
  split at hrole
  -- The operand of a negation is the only such argument of an expression.
  case h_1 =>
    cases hrole
    cases hnames
    have hoperand : part.expression = other.expression := hsame
    refine node_ext ?_ rfl
    simp only [expressionOf?, hf, hg]
    rcases given with _ | _ | ⟨op, _ | ⟨operand, _ | ⟨more, given⟩⟩⟩
    case some.cons.cons.nil => simp [hoperand]
    all_goals rfl
  case h_8 => cases hrole
  all_goals
    cases hrole
    cases hnames
    refine node_ext rfl ?_
    simp only [statementOf?, hf, hg]
    simp only [Role.of?] at hsame
    rcases given with _ | _ | ⟨first, _ | ⟨second, _ | ⟨third, _ | ⟨fourth, _ | ⟨more, given⟩⟩⟩⟩⟩
  -- Too few arguments, or too many, are no statement of the kind.
  all_goals try rfl
  all_goals simp [bodyOf?, hsame]

end

/-! ### Nodes by name -/

section

variable {role : Role} {fields : List (Json.Literal × Reading)}

/-- A field says of which kind the node is. -/
def Tells (role : Role) (fields : List (Json.Literal × Reading)) (type : String) : Prop :=
  ∃ field ∈ fields, field.1.text? = some "type" ∧ role.kind? field.2 = some type

/-- The kind of a node by name, if one field and no other tells it. -/
def type? (role : Role) (fields : List (Json.Literal × Reading)) : Option String :=
  (Form.exactlyOne? (Form.parts "type" fields)).bind role.kind?

theorem of?_ofForm_named (role : Role) (fields : List (Json.Literal × Reading)) :
    role.of? (ofForm (.named fields)) =
      (type? role fields).bind fun type => role.node? type (.named (Form.untagged fields)) := by
  rw [of?_ofForm, Form.tagged?_named, ← type?, Option.bind_map]
  rfl

theorem Tells.type_eq {type found : String} (h : Tells role fields type)
    (hfound : type? role fields = some found) : found = type := by
  obtain ⟨field, hmem, hname, htext⟩ := h
  have hpart : field.2 ∈ Form.parts "type" fields :=
    List.mem_map_of_mem (List.mem_filter.mpr ⟨hmem, decide_eq_true hname⟩)
  unfold type? at hfound
  rcases hparts : Form.parts "type" fields with _ | ⟨tag, _ | ⟨other, tags⟩⟩
  · rw [hparts] at hfound
    cases hfound
  · rw [hparts, List.mem_singleton] at hpart
    rw [hparts, ← hpart] at hfound
    exact Option.some.inj (hfound.symm.trans htext)
  · rw [hparts] at hfound
    cases hfound

theorem ofForm_perm {others : List (Json.Literal × Reading)} (h : fields.Perm others) :
    role.of? (ofForm (.named fields)) = role.of? (ofForm (.named others)) := by
  have htype : type? role fields = type? role others := by
    rw [type?, type?, Form.exactlyOne?_eq, Form.exactlyOne?_eq,
      Form.atMostOne?_perm (Form.parts_perm h "type")]
  have hnode (type : String) : role.node? type (.named (Form.untagged fields)) =
      role.node? type (.named (Form.untagged others)) :=
    node_congr fun names _ => Form.arguments?_perm (h.filter _) names
  simp only [of?_ofForm_named, htype, hnode]

/-- Other fields make no difference if they make none to the tag and to a node of the kind that it
    tells. -/
theorem ofForm_congr {type : String} (htype : Tells role fields type)
    {others : List (Json.Literal × Reading)}
    (htag : Form.parts "type" others = Form.parts "type" fields)
    (hnode : role.node? type (.named (Form.untagged others)) =
      role.node? type (.named (Form.untagged fields))) :
    role.of? (ofForm (.named others)) = role.of? (ofForm (.named fields)) := by
  have hsame : type? role others = type? role fields := by
    rw [type?, type?, htag]
  rw [of?_ofForm_named, of?_ofForm_named, hsame]
  cases hfound : type? role fields with
  | none => rfl
  | some found =>
    rw [htype.type_eq hfound]
    exact hnode

theorem ofForm_cons {type text : String} (htype : Tells role fields type) {name : Json.Literal}
    (hname : name.text? = some text) (hne : text ≠ "type") {part : Reading}
    (hnode : role.node? type (.named ((name, part) :: Form.untagged fields)) =
      role.node? type (.named (Form.untagged fields))) :
    role.of? (ofForm (.named ((name, part) :: fields))) = role.of? (ofForm (.named fields)) := by
  have hother : name.text? ≠ some "type" := by
    rwa [hname, ne_eq, Option.some.injEq]
  apply ofForm_congr htype (Form.parts_cons_of_ne hother part fields)
  rw [Form.untagged_cons_of_ne hother]
  exact hnode

theorem ofForm_ignored {type text : String} (htype : Tells role fields type) {names : List String}
    (hnames : fieldNames? type = some names) {name : Json.Literal} (hname : name.text? = some text)
    (hne : text ≠ "type") (hunknown : text ∉ names) (part : Reading) :
    role.of? (ofForm (.named ((name, part) :: fields))) = role.of? (ofForm (.named fields)) := by
  apply ofForm_cons htype hname hne
  apply node_congr
  intro others hothers
  rw [hnames] at hothers
  cases hothers
  exact Form.arguments?_cons_of_notMem hname hunknown part _

theorem ofForm_body {type : String} (htype : Tells role fields type) (hbody : HasBody type)
    {name : Json.Literal} (hname : name.text? = some "body")
    (habsent : ∀ field ∈ fields, field.1.text? ≠ some "body") {empty : Reading}
    (hempty : empty.body = some []) :
    role.of? (ofForm (.named ((name, empty) :: fields))) = role.of? (ofForm (.named fields)) := by
  obtain ⟨names, hnames, hlast⟩ := hbody.fieldNames?
  have hnothing : Form.parts "body" (Form.untagged fields) = [] := by
    rw [Form.parts, List.map_eq_nil_iff, List.filter_eq_nil_iff]
    intro field hfield
    have hmem : field ∈ fields := (List.mem_filter.mp hfield).1
    simpa using habsent field hmem
  obtain ⟨given, hwithout, hwith⟩ := Form.arguments?_last hname hlast empty hnothing
  apply ofForm_cons htype hname (by decide)
  exact (node_body hbody hnames hempty hwithout hwith).symm

/-- Of a field that is a node or a body, only what it is in that role matters. -/
theorem node_field {type text : String} {inner : Role} (hrole : fieldRole? type text = some inner)
    {name : Json.Literal} (hname : name.text? = some text) {part other : Reading}
    (hsame : inner.of? part = inner.of? other) (before behind : List (Json.Literal × Reading)) :
    role.node? type (.named (before ++ (name, part) :: behind)) =
      role.node? type (.named (before ++ (name, other) :: behind)) := by
  obtain ⟨names, hnames, hmem⟩ := Program.fieldRole?_mem hrole
  have hdistinct := (Program.fieldNames?_distinct hnames).2
  exact node_set hrole hnames hsame
    (Form.arguments?_set hname hdistinct hmem before behind part part)
    (Form.arguments?_set hname hdistinct hmem before behind part other)

theorem ofForm_field {before behind : List (Json.Literal × Reading)} {type text : String}
    (htype : Tells role (before ++ behind) type) {inner : Role}
    (hrole : fieldRole? type text = some inner) {name : Json.Literal}
    (hname : name.text? = some text) {part other : Reading}
    (hsame : inner.of? part = inner.of? other) :
    role.of? (ofForm (.named (before ++ (name, part) :: behind))) =
      role.of? (ofForm (.named (before ++ (name, other) :: behind))) := by
  obtain ⟨names, hnames, hmem⟩ := Program.fieldRole?_mem hrole
  have hne : text ≠ "type" := by
    rintro rfl
    exact (Program.fieldNames?_distinct hnames).1 hmem
  have hother : name.text? ≠ some "type" := by
    rwa [hname, ne_eq, Option.some.injEq]
  have htells : Tells role (before ++ (name, other) :: behind) type := by
    obtain ⟨field, hfield, htag⟩ := htype
    have hsublist := (List.sublist_cons_self (name, other) behind).append_left before
    exact ⟨field, hsublist.subset hfield, htag⟩
  apply ofForm_congr htells
  · simp only [Form.parts_append, Form.parts_cons_of_ne hother]
  · rw [Form.untagged_append, Form.untagged_append, Form.untagged_cons_of_ne hother,
      Form.untagged_cons_of_ne hother]
    exact node_field hrole hname hsame _ _

end

/-! ### Nodes by position -/

section

variable {role : Role} {type : String} {args : List Reading} {names : List String}
  (hnames : fieldNames? type = some names)
include hnames

theorem node_zip (hlength : args.length ≤ names.length) :
    role.node? type (.positional args) = role.node? type (.record (names.zip args)) := by
  apply node_congr
  intro others hothers
  rw [hnames] at hothers
  cases hothers
  exact (Form.arguments?_zip (Program.fieldNames?_distinct hnames).2 hlength).symm

/-- Of an argument that is a node or a body, only what it is in that role matters. -/
theorem node_argument {name : String} {inner : Role} (hrole : fieldRole? type name = some inner)
    {before behind : List Reading} (hplace : names[before.length]? = some name)
    {part other : Reading} (hlength : (before ++ part :: behind).length ≤ names.length)
    (hsame : inner.of? part = inner.of? other) :
    role.node? type (.positional (before ++ part :: behind)) =
      role.node? type (.positional (before ++ other :: behind)) := by
  have hother : (before ++ other :: behind).length ≤ names.length := by simpa using hlength
  rw [node_zip hnames hlength, node_zip hnames hother]
  obtain ⟨hlt, hname⟩ := List.getElem?_eq_some_iff.mp hplace
  have hsplit : names = names.take before.length ++ name :: names.drop (before.length + 1) := by
    rw [← hname, List.getElem_cons_drop, List.take_append_drop]
  have hfront : (names.take before.length).length = before.length :=
    List.length_take_of_le (Nat.le_of_lt hlt)
  rw [hsplit, List.zip_append hfront, List.zip_append hfront, List.zip_cons_cons,
    List.zip_cons_cons]
  simp only [Form.record, Form.spelled, List.map_append, List.map_cons]
  exact node_field hrole (Json.Literal.text?_ofText name) hsame _ _

theorem node_trailing (hbody : HasBody type) (hlength : args.length + 1 = names.length)
    {empty : Reading} (hempty : empty.body = some []) :
    role.node? type (.positional args) = role.node? type (.positional (args ++ [empty])) := by
  have hshort : (Form.positional args).arguments? names =
      (some (args.map some)).map (· ++ [none]) := by
    rw [Form.arguments?, if_pos (by omega), ← hlength, Nat.add_sub_cancel_left]
    rfl
  have hlong : (Form.positional (args ++ [empty])).arguments? names =
      (some (args.map some)).map (· ++ [some empty]) := by
    have hfull : (args ++ [empty]).length = names.length := by
      rw [List.length_append, List.length_singleton, hlength]
    rw [Form.arguments?, if_pos (Nat.le_of_eq hfull), hfull, Nat.sub_self, List.map_append]
    simp
  exact node_body hbody hnames hempty hshort hlong

end

end Reading

end Microboard
