import Microboard.Compiler.Compilation
import Microboard.Program.Written
import Microboard.Proofs.Json.Nesting
import Microboard.Proofs.Json.RoundTrip
import Microboard.Proofs.Program.Roles

/-!
# Reading a written program

The text of a program is read as that program, if its nesting is within the limit, and else as none:
`Program.read_text`.
-/

namespace Microboard

open Json (Form)

open Program (Tag)

/-! ### Readings of what is written -/

@[simp] theorem AssignOp.ofSymbol?_symbol (op : AssignOp) : ofSymbol? op.symbol = some op := by
  cases op <;> decide

@[simp] theorem Comparison.ofSymbol?_symbol (comparison : Comparison) :
    ofSymbol? comparison.symbol = some comparison := by
  cases comparison <;> decide

@[simp] theorem Sign.ofSymbol?_symbol (sign : Sign) : ofSymbol? sign.symbol = some sign := by
  cases sign <;> decide

namespace Reading

@[simp] theorem ofJson_text (s : String) :
    ofJson (.text s) = { text := some s, symbol := some s, expression := some (.name s) } := by
  rw [Json.text, ofJson, Json.Literal.text?_ofText]
  rfl

@[simp] theorem ofJson_int64 (value : Int64) :
    ofJson (.int64 value) = { literal := some value, expression := some (.literal value) } := by
  have hvalue := Json.int64?_int64 value
  rw [Json.int64, Json.int] at hvalue ⊢
  rw [ofJson, hvalue]
  rfl

section

variable {type : String} {fields : List (String × Json)} (hnames : "type" ∉ fields.map Prod.fst)
include hnames

theorem expression_of_tagged {e : Expression}
    (h : expressionOf? type (.record (parts fields)) = some e) :
    (ofJson (.tagged type fields)).expression = some e := by
  have htag : Tag .expression (.text type) type := by
    rw [Tag, ofJson_text]
    rfl
  exact (of?_tagged htag hnames).trans h

theorem statement_of_tagged {s : Statement}
    (h : statementOf? type (.record (parts fields)) = some s) :
    (ofJson (.tagged type fields)).statement = some s ∧
      (ofJson (.tagged type fields)).outermost = some s := by
  have htag : Tag .statement (.text type) type := by
    rw [Tag, ofJson_text]
    rfl
  have htext : Tag .outermost (.text type) type := by
    rw [Tag, ofJson_text]
    rfl
  exact ⟨(of?_tagged htag hnames).trans h, (of?_tagged htext hnames).trans h⟩

end

theorem expression_toJson (e : Expression) : (ofJson e.toJson).expression = some e := by
  induction e with
  | name given => rw [Expression.toJson, ofJson_text]
  | literal value => rw [Expression.toJson, ofJson_int64]
  | negation operand ih =>
    apply expression_of_tagged (by simp)
    simp [expressionOf?, parts, Form.arguments?_record, List.lookup_cons, ih]
  | shifted base sign amount =>
    apply expression_of_tagged (by simp)
    simp [expressionOf?, parts, Form.arguments?_record, List.lookup_cons]

mutual

theorem statement_toJson (s : Statement) :
    (ofJson s.toJson).statement = some s ∧ (ofJson s.toJson).outermost = some s := by
  cases s with
  | declare name value =>
    apply statement_of_tagged (by simp)
    simp [statementOf?, parts, Form.arguments?_record, List.lookup_cons]
  | assign name op value =>
    have hvalue := expression_toJson value
    apply statement_of_tagged (by simp)
    simp [statementOf?, parts, Form.arguments?_record, List.lookup_cons, hvalue]
  | branch left comparison right body =>
    have hbody := (body_toJson body).1
    apply statement_of_tagged (by simp)
    simp [statementOf?, parts, Form.arguments?_record, List.lookup_cons, bodyOf?, hbody]
  | loop body =>
    have hbody := (body_toJson body).1
    apply statement_of_tagged (by simp)
    simp [statementOf?, parts, Form.arguments?_record, List.lookup_cons, bodyOf?, hbody]
  | pixel x y =>
    have hx := expression_toJson x
    have hy := expression_toJson y
    apply statement_of_tagged (by simp)
    simp [statementOf?, parts, Form.arguments?_record, List.lookup_cons, hx, hy]
  | print text =>
    apply statement_of_tagged (by simp)
    simp [statementOf?, parts, Form.arguments?_record, List.lookup_cons]
  | clear =>
    apply statement_of_tagged (by simp)
    simp [statementOf?, parts, Form.arguments?_record]
  | move x y =>
    have hx := expression_toJson x
    apply statement_of_tagged (by simp)
    simp [statementOf?, parts, Form.arguments?_record, List.lookup_cons, hx]
  | delay cycles =>
    apply statement_of_tagged (by simp)
    simp [statementOf?, parts, Form.arguments?_record, List.lookup_cons]

theorem body_toJson (body : List Statement) :
    (ofJson (.array (statementsToJson body))).body = some body ∧
      (ofJson (.array (statementsToJson body))).program = some body := by
  rw [ofJson]
  exact statements_toJson body

theorem statements_toJson (body : List Statement) :
    (ofItems (statementsToJson body)).mapM Reading.statement = some body ∧
      (ofItems (statementsToJson body)).mapM Reading.outermost = some body := by
  cases body with
  | nil => exact ⟨rfl, rfl⟩
  | cons s rest =>
    obtain ⟨hstatement, houtermost⟩ := statement_toJson s
    obtain ⟨hbody, hprogram⟩ := statements_toJson rest
    rw [statementsToJson, ofItems, List.mapM_cons, List.mapM_cons, hstatement, houtermost, hbody,
      hprogram]
    exact ⟨rfl, rfl⟩

end

end Reading

/-! ### What is written is plain -/

namespace Json.Plain

theorem tagged (type : String) {fields : List (String × Json)}
    (h : ∀ field ∈ fields, field.2.Plain) : (Json.tagged type fields).Plain :=
  .record (List.forall_mem_cons.mpr ⟨.text type, h⟩)

end Json.Plain

theorem Expression.plain_toJson (e : Expression) : e.toJson.Plain := by
  induction e with
  | name given => exact .text given
  | literal value => exact .int64 value
  | negation operand ih =>
    refine .tagged _ ?_
    simp [Json.Plain.text, ih]
  | shifted base sign amount =>
    refine .tagged _ ?_
    simp [Json.Plain.text, Json.Plain.int64]

mutual

theorem Statement.plain_toJson (s : Statement) : s.toJson.Plain := by
  cases s with
  | branch left comparison right body =>
    have hbody : (Json.array (statementsToJson body)).Plain := .array (plain_statementsToJson body)
    refine .tagged _ ?_
    simp [Json.Plain.text, Json.Plain.int64, hbody]
  | loop body =>
    have hbody : (Json.array (statementsToJson body)).Plain := .array (plain_statementsToJson body)
    refine .tagged _ ?_
    simp [hbody]
  | _ =>
    refine .tagged _ ?_
    simp [Json.Plain.text, Json.Plain.int64, Expression.plain_toJson]

theorem plain_statementsToJson (body : List Statement) :
    ∀ item ∈ statementsToJson body, item.Plain := by
  cases body with
  | nil => rintro item ⟨⟩
  | cons s rest =>
    exact List.forall_mem_cons.mpr ⟨s.plain_toJson, plain_statementsToJson rest⟩

end

/-- The text of a program is read as that program if the arrays and objects that its tokens open
    nest at most 127 levels deep; otherwise it cannot be read. -/
theorem Program.read_text (p : Program) :
    ∃ ts, Json.Token.scan? p.text.toList = some ts ∧
      Program.read p.text =
        if Json.Token.nesting 0 ts ≤ 127 then .ok p else .error .unreadable := by
  have hplain : p.toJson.Plain := .array (plain_statementsToJson p)
  have hvalue : Json.read? p.text = some p.toJson := hplain.read?_compact
  have hprogram : (Reading.ofJson p.toJson).program = some p := (Reading.body_toJson p).2
  refine ⟨p.toJson.tokens, hplain.scan?_compact, ?_⟩
  rw [Json.nesting_eq_depth]
  by_cases hdepth : p.toJson.depth ≤ 127
  · have hread : Program.read? p.text = some p := by
      simp [Program.read?, ofJson?, hvalue, nestingLimit, hdepth, hplain.denotes, hprogram]
    rw [Program.read, hread, if_pos hdepth]
  · have hread : Program.read? p.text = none := by
      simp [Program.read?, ofJson?, hvalue, nestingLimit, hdepth]
    rw [Program.read, hread, if_neg hdepth]

end Microboard
