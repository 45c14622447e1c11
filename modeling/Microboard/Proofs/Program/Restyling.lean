import Mathlib.Logic.Relation
import Microboard.Proofs.Json.Grammar
import Microboard.Proofs.Program.Nodes
import Microboard.Proofs.Program.RoundTrip

/-!
# Programs in any style

A program can be written in many ways. `Edit` lists what can be changed in the value that a text
holds, and `Json.Spells` leaves open how the value is written down. None of this changes the program
that is read: `read_restyled`.
-/

namespace Microboard

open Json (Form)

open Program (Role Tag fieldNames? fieldRole? HasBody)

namespace Program

/-- In a role, an object is marked as a node of a kind. -/
def Marked (role : Role) (fields : List (Json.Literal × Json)) (type : String) : Prop :=
  ∃ field ∈ fields, field.1.text? = some "type" ∧ Tag role field.2 type

/-- A change in style at one place of a value that is read in a role. -/
inductive Edit : Role → Json → Json → Prop
  /-- The fields of an object come in another order. -/
  | permute {role : Role} {fields others : List (Json.Literal × Json)} (h : fields.Perm others) :
      Edit role (.object fields) (.object others)
  /-- A node gets a field that its kind does not have. -/
  | ignore {role : Role} {fields : List (Json.Literal × Json)} {type text : String}
      {names : List String} {name : Json.Literal} {value : Json} (htype : Marked role fields type)
      (hnames : fieldNames? type = some names) (hname : name.text? = some text)
      (hne : text ≠ "type") (hunknown : text ∉ names) (hvalue : value.NumbersFit) :
      Edit role (.object fields) (.object ((name, value) :: fields))
  /-- A node by position is written by name. -/
  | name {role : Role} {tag : Json} {type : String} {names : List String} {args : List Json}
      (htag : Tag role tag type) (hnames : fieldNames? type = some names)
      (hlength : args.length ≤ names.length) :
      Edit role (.array (tag :: args)) (.record (("type", tag) :: names.zip args))
  /-- A node by name gets the empty body that it left out. -/
  | body {role : Role} {fields : List (Json.Literal × Json)} {type : String}
      (htype : Marked role fields type) (hbody : HasBody type)
      (habsent : ∀ field ∈ fields, field.1.text? ≠ some "body") :
      Edit role (.object fields) (.object ((.ofText "body", .array []) :: fields))
  /-- A node by position gets the empty body that it left out. -/
  | trailing {role : Role} {tag : Json} {type : String} {names : List String} {args : List Json}
      (htag : Tag role tag type) (hbody : HasBody type) (hnames : fieldNames? type = some names)
      (hlength : args.length + 1 = names.length) :
      Edit role (.array (tag :: args)) (.array (tag :: (args ++ [.array []])))
  /-- A change inside a field of a node by name. -/
  | field {role inner : Role} {before behind : List (Json.Literal × Json)} {type text : String}
      {name : Json.Literal} {v w : Json} (htype : Marked role (before ++ behind) type)
      (hname : name.text? = some text) (hrole : fieldRole? type text = some inner)
      (h : Edit inner v w) :
      Edit role (.object (before ++ (name, v) :: behind)) (.object (before ++ (name, w) :: behind))
  /-- A change inside a field of a node by position. -/
  | argument {role inner : Role} {tag : Json} {type name : String} {names : List String}
      {before behind : List Json} {v w : Json} (htag : Tag role tag type)
      (hnames : fieldNames? type = some names) (hplace : names[before.length]? = some name)
      (hlength : (before ++ v :: behind).length ≤ names.length)
      (hrole : fieldRole? type name = some inner) (h : Edit inner v w) :
      Edit role (.array (tag :: (before ++ v :: behind))) (.array (tag :: (before ++ w :: behind)))
  /-- A change inside a statement of a body. -/
  | statement {before behind : List Json} {v w : Json} (h : Edit .statement v w) :
      Edit .body (.array (before ++ v :: behind)) (.array (before ++ w :: behind))
  /-- A change inside a statement of the program itself. -/
  | outermost {before behind : List Json} {v w : Json} (h : Edit .outermost v w) :
      Edit .program (.array (before ++ v :: behind)) (.array (before ++ w :: behind))

end Program

namespace Reading

/-! ### The spelling of names -/

/-- The fields with their names normal. -/
def respelled (fields : List (Json.Literal × Reading)) : List (Json.Literal × Reading) :=
  fields.map fun field => (field.1.normal, field.2)

theorem parts_respelled (name : String) (fields : List (Json.Literal × Reading)) :
    Form.parts name (respelled fields) = Form.parts name fields := by
  rw [Form.parts, respelled, List.filter_map, List.map_map]
  simp only [Function.comp_def, Json.Literal.text?_normal]
  rfl

theorem untagged_respelled (fields : List (Json.Literal × Reading)) :
    Form.untagged (respelled fields) = respelled (Form.untagged fields) := by
  rw [Form.untagged, respelled, List.filter_map]
  simp only [Function.comp_def, Json.Literal.text?_normal]
  rfl

theorem ofForm_respelled (fields : List (Json.Literal × Reading)) :
    ofForm (.named (respelled fields)) = ofForm (.named fields) := by
  have htype (role : Role) : type? role (respelled fields) = type? role fields := by
    rw [type?, type?, parts_respelled]
  have harguments (names : List String) :
      (Form.named (respelled (Form.untagged fields))).arguments? names =
        (Form.named (Form.untagged fields)).arguments? names := by
    simp only [Form.arguments?_named, parts_respelled]
    simp only [respelled, List.all_map, Function.comp_def, Json.Literal.text?_normal]
  have hnode (role : Role) (type : String) :
      role.node? type (.named (respelled (Form.untagged fields))) =
        role.node? type (.named (Form.untagged fields)) :=
    node_congr fun names _ => harguments names
  apply ofForm_ext
  intro role
  simp only [of?_ofForm_named, htype, untagged_respelled, hnode]

theorem isNothing_normal (v : Json) : v.normal.isNothing = v.isNothing := by
  cases v with
  | object fields =>
    cases fields with
    | nil => rfl
    | cons field fields => rfl
  | _ => rfl

theorem symbol?_normal (v : Json) : v.normal.symbol? = v.symbol? := by
  cases v with
  | string l => exact Json.Literal.text?_normal l
  | object fields =>
    rcases fields with _ | ⟨⟨name, value⟩, _ | ⟨⟨other, more⟩, fields⟩⟩
    · rfl
    · simp only [Json.normal, Json.normalFields, Json.symbol?, isNothing_normal,
        Json.Literal.text?_normal]
    · rfl
  | _ => rfl

/-- What a value can stand for does not depend on the spelling of literals. -/
theorem ofJson_normal (v : Json) : ofJson v.normal = ofJson v := by
  induction v using Json.induct with
  | string l => rw [Json.normal, ofJson, ofJson, Json.Literal.text?_normal]
  | array items ih =>
    have hitems : ofItems (items.map Json.normal) = ofItems items := by
      rw [ofItems_eq, ofItems_eq, List.map_map]
      exact List.map_congr_left ih
    rw [Json.normal, Json.normalItems_eq, ofJson, hitems, ofJson]
  | object fields ih =>
    have hfields : ofFields (Json.normalFields fields) = respelled (ofFields fields) := by
      rw [Json.normalFields_eq, ofFields_eq, ofFields_eq, respelled, List.map_map, List.map_map]
      apply List.map_congr_left
      intro field hfield
      exact congrArg (Prod.mk field.1.normal) (ih field hfield)
    have hsymbol := symbol?_normal (.object fields)
    rw [Json.normal] at hsymbol ⊢
    rw [ofJson, hfields, ofForm_respelled, hsymbol, ofJson]
  | _ => rfl

/-! ### Edits -/

theorem tells_of_marked {role : Role} {fields : List (Json.Literal × Json)} {type : String}
    (h : Program.Marked role fields type) : Tells role (ofFields fields) type := by
  obtain ⟨field, hmem, hname, htag⟩ := h
  rw [ofFields_eq]
  exact ⟨_, List.mem_map_of_mem hmem, hname, htag⟩

theorem ofItems_middle (before behind : List Json) (v : Json) :
    ofItems (before ++ v :: behind) = ofItems before ++ ofJson v :: ofItems behind := by
  simp only [ofItems_eq, List.map_append, List.map_cons]

theorem mapM_middle {α : Type} {f : Reading → Option α} {part other : Reading}
    (h : f part = f other) (before behind : List Reading) :
    (before ++ part :: behind).mapM f = (before ++ other :: behind).mapM f := by
  rw [List.mapM_append, List.mapM_append, List.mapM_cons, List.mapM_cons, h]

/-- An edit leaves alone what a value is in its role. -/
theorem of?_edit {role : Role} {v w : Json} (h : Program.Edit role v w) :
    role.of? (ofJson v) = role.of? (ofJson w) := by
  induction h with
  | permute h =>
    rw [of?_object, of?_object, ofFields_eq, ofFields_eq]
    exact ofForm_perm (h.map _)
  | ignore htype hnames hname hne hunknown _ =>
    rw [of?_object, of?_object, ofFields]
    exact (ofForm_ignored (tells_of_marked htype) hnames hname hne hunknown _).symm
  | @name role tag type names args htag hnames hlength =>
    have hnotype : "type" ∉ (names.zip args).map Prod.fst := by
      intro hmem
      obtain ⟨⟨name, value⟩, hfield, rfl⟩ := List.mem_map.mp hmem
      exact (Program.fieldNames?_distinct hnames).1 (List.of_mem_zip hfield).1
    have hparts : parts (names.zip args) = names.zip (ofItems args) := by
      rw [ofItems_eq, List.zip_map_right]
      rfl
    have hsame : (ofItems args).length ≤ names.length := by
      rwa [ofItems_eq, List.length_map]
    rw [of?_positional htag, of?_tagged htag hnotype, hparts]
    exact node_zip hnames hsame
  | body htype hbody habsent =>
    rw [of?_object, of?_object, ofFields]
    have hname := Json.Literal.text?_ofText "body"
    refine (ofForm_body (tells_of_marked htype) hbody hname ?_ rfl).symm
    intro field hfield
    rw [ofFields_eq] at hfield
    obtain ⟨given, hgiven, rfl⟩ := List.mem_map.mp hfield
    exact habsent given hgiven
  | @trailing role tag type names args htag hbody hnames hlength =>
    have hitems : ofItems (args ++ [.array []]) = ofItems args ++ [ofJson (.array [])] := by
      rw [ofItems_eq, ofItems_eq, List.map_append, List.map_singleton]
    have hsame : (ofItems args).length + 1 = names.length := by
      rwa [ofItems_eq, List.length_map]
    rw [of?_positional htag, of?_positional htag, hitems]
    exact node_trailing hnames hbody hsame rfl
  | @field role inner before behind type text name v w htype hname hrole _ ih =>
    have hparts (given : Json) : ofFields (before ++ (name, given) :: behind) =
        ofFields before ++ (name, ofJson given) :: ofFields behind := by
      simp only [ofFields_eq, List.map_append, List.map_cons]
    have htells : Tells role (ofFields before ++ ofFields behind) type := by
      have hmarked := tells_of_marked htype
      rwa [ofFields_eq, List.map_append, ← ofFields_eq, ← ofFields_eq] at hmarked
    rw [of?_object, of?_object, hparts, hparts]
    exact ofForm_field htells hrole hname ih
  | @argument role inner tag type name names before behind v w htag hnames hplace hlength hrole _
      ih =>
    have hsame : names[(ofItems before).length]? = some name := by
      rwa [ofItems_eq, List.length_map]
    have hfew : (ofItems before ++ ofJson v :: ofItems behind).length ≤ names.length := by
      rwa [← ofItems_middle, ofItems_eq, List.length_map]
    rw [of?_positional htag, of?_positional htag, ofItems_middle, ofItems_middle]
    exact node_argument hnames hrole hsame hfew ih
  | @statement before behind v w _ ih =>
    have hsame : (ofJson v).statement = (ofJson w).statement := ih
    have hbody := mapM_middle hsame (ofItems before) (ofItems behind)
    rwa [← ofItems_middle, ← ofItems_middle] at hbody
  | @outermost before behind v w _ ih =>
    have hsame : (ofJson v).outermost = (ofJson w).outermost := ih
    have hprogram := mapM_middle hsame (ofItems before) (ofItems behind)
    rwa [← ofItems_middle, ← ofItems_middle] at hprogram

end Reading

namespace Program

theorem forall_middle {α : Type} {P : α → Prop} {before behind : List α} {a b : α}
    (h : P a ↔ P b) :
    (∀ item ∈ before ++ a :: behind, P item) ↔ ∀ item ∈ before ++ b :: behind, P item := by
  rw [List.forall_mem_append, List.forall_mem_append, List.forall_mem_cons, List.forall_mem_cons, h]

theorem numbersFit_edit {role : Role} {v w : Json} (h : Edit role v w) :
    v.NumbersFit ↔ w.NumbersFit := by
  have hnothing : (Json.array []).NumbersFit := Json.numbersFit_array.mpr (List.forall_mem_nil _)
  induction h with
  | permute h =>
    rw [Json.numbersFit_object, Json.numbersFit_object]
    exact forall_congr' fun field => imp_congr_left h.mem_iff
  | ignore _ _ _ _ _ hvalue =>
    rw [Json.numbersFit_object, Json.numbersFit_object, List.forall_mem_cons]
    exact (and_iff_right hvalue).symm
  | @name role tag type names args _ _ hlength =>
    have hargs : args = (names.zip args).map Prod.snd := (List.map_snd_zip hlength).symm
    rw [Json.numbersFit_array, Json.record, Json.numbersFit_object, List.forall_mem_cons,
      List.forall_mem_map, List.forall_mem_cons]
    refine and_congr_right fun _ => ?_
    conv_lhs => rw [hargs]
    rw [List.forall_mem_map]
  | body =>
    rw [Json.numbersFit_object, Json.numbersFit_object, List.forall_mem_cons]
    exact (and_iff_right hnothing).symm
  | trailing =>
    rw [Json.numbersFit_array, Json.numbersFit_array, List.forall_mem_cons, List.forall_mem_cons,
      List.forall_mem_append, List.forall_mem_singleton]
    exact and_congr_right fun _ => (and_iff_left hnothing).symm
  | field _ _ _ _ ih =>
    rw [Json.numbersFit_object, Json.numbersFit_object]
    exact forall_middle (P := fun field : Json.Literal × Json => field.2.NumbersFit) ih
  | argument _ _ _ _ _ _ ih =>
    rw [Json.numbersFit_array, Json.numbersFit_array, List.forall_mem_cons, List.forall_mem_cons]
    exact and_congr_right fun _ => forall_middle ih
  | statement _ ih | outermost _ ih =>
    rw [Json.numbersFit_array, Json.numbersFit_array]
    exact forall_middle ih

/-- Changes in style leave alone what a value is in its role, and bring in no number that is too
    large. -/
theorem restyled {role : Role} {v w : Json} (h : Relation.EqvGen (Edit role) v w) :
    role.of? (Reading.ofJson v) = role.of? (Reading.ofJson w) ∧ (v.NumbersFit ↔ w.NumbersFit) := by
  induction h with
  | rel v w h => exact ⟨Reading.of?_edit h, numbersFit_edit h⟩
  | refl v => exact ⟨rfl, Iff.rfl⟩
  | symm v w _ ih => exact ⟨ih.1.symm, ih.2.symm⟩
  | trans u v w _ _ ihfirst ihrest => exact ⟨ihfirst.1.trans ihrest.1, ihfirst.2.trans ihrest.2⟩

theorem read_eq_ok {text : String} {p : Program} :
    Program.read text = .ok p ↔ ∃ v, Json.read? text = some v ∧ v.depth ≤ nestingLimit ∧
      v.denotes = true ∧ (Reading.ofJson v).program = some p := by
  have hread : Program.read text = .ok p ↔ Program.read? text = some p := by
    rw [Program.read]
    cases Program.read? text with
    | none =>
      constructor
      · intro h
        cases h
      · intro h
        cases h
    | some q => rw [Except.ok.injEq, Option.some.injEq]
  rw [hread, Program.read?, Option.bind_eq_bind, Option.bind_eq_some_iff]
  refine exists_congr fun v => and_congr_right fun _ => ?_
  rw [ofJson?]
  split
  · rename_i hgood
    rw [Bool.and_eq_true, decide_eq_true_eq] at hgood
    rw [and_iff_right hgood.1, and_iff_right hgood.2]
  · rename_i hbad
    rw [Bool.and_eq_true, decide_eq_true_eq] at hbad
    constructor
    · intro h
      cases h
    · rintro ⟨hdepth, hdenotes, -⟩
      exact absurd ⟨hdepth, hdenotes⟩ hbad

end Program

end Microboard
