import Microboard.Proofs.Json.Building

/-!
# Values up to the spelling of texts

A text with characters beyond the first 65536 can be spelled by different code points. A value in
which every literal is spelled by the characters of its text is `normal`. Building a value from
tokens does not depend on the spelling: `ofTokens?_normal`.
-/

namespace Microboard.Json

/-- The literal that spells its text by characters. A literal without a text is left as it is. -/
def Literal.normal (l : Literal) : Literal :=
  (l.text?.map ofText).getD l

def Token.normal : Token → Token
  | .string l => .string l.normal
  | t => t

mutual

/-- The value with the literals normal. -/
def normal : Json → Json
  | .string l => .string l.normal
  | .array items => .array (normalItems items)
  | .object fields => .object (normalFields fields)
  | v => v

def normalItems : List Json → List Json
  | [] => []
  | item :: items => normal item :: normalItems items

def normalFields : List (Literal × Json) → List (Literal × Json)
  | [] => []
  | (name, value) :: fields => (name.normal, normal value) :: normalFields fields

end

theorem normalItems_eq (items : List Json) : normalItems items = items.map normal := by
  induction items with
  | nil => rfl
  | cons item items ih => rw [normalItems, ih, List.map_cons]

theorem normalFields_eq (fields : List (Literal × Json)) :
    normalFields fields = fields.map fun field => (field.1.normal, field.2.normal) := by
  induction fields with
  | nil => rfl
  | cons field fields ih => rw [normalFields, ih, List.map_cons]

/-! ### What is kept -/

theorem Literal.text?_normal (l : Literal) : l.normal.text? = l.text? := by
  unfold normal
  cases h : l.text? with
  | none => exact h
  | some s => exact text?_ofText s

theorem Literal.normal_eq {l m : Literal} (h : l.text?.isSome) (htext : m.text? = l.text?) :
    m.normal = l.normal := by
  obtain ⟨s, hs⟩ := Option.isSome_iff_exists.mp h
  rw [normal, normal, htext, hs]
  rfl

theorem depth_normal (v : Json) : v.normal.depth = v.depth := by
  induction v using Json.induct with
  | array items ih =>
    have hitems : depthOfItems (items.map normal) = depthOfItems items := by
      induction items with
      | nil => rfl
      | cons item items hrest =>
        obtain ⟨hitem, hothers⟩ := List.forall_mem_cons.mp ih
        rw [List.map_cons, depthOfItems, depthOfItems, hitem, hrest hothers]
    rw [normal, normalItems_eq, depth, hitems, depth]
  | object fields ih =>
    have hfields : depthOfFields (normalFields fields) = depthOfFields fields := by
      induction fields with
      | nil => rfl
      | cons field fields hrest =>
        obtain ⟨hvalue, hothers⟩ := List.forall_mem_cons.mp ih
        rw [normalFields, depthOfFields, depthOfFields, hvalue, hrest hothers]
    rw [normal, depth, hfields, depth]
  | _ => rfl

theorem denotes_normal (v : Json) : v.normal.denotes = v.denotes := by
  induction v using Json.induct with
  | string l => rw [normal, denotes, denotes, Literal.text?_normal]
  | array items ih =>
    have hitems : itemsDenote (normalItems items) = itemsDenote items := by
      induction items with
      | nil => rfl
      | cons item items hrest =>
        obtain ⟨hitem, hothers⟩ := List.forall_mem_cons.mp ih
        rw [normalItems, itemsDenote, itemsDenote, hitem, hrest hothers]
    rw [normal, denotes, hitems, denotes]
  | object fields ih =>
    have hfields : fieldsDenote (normalFields fields) = fieldsDenote fields := by
      induction fields with
      | nil => rfl
      | cons field fields hrest =>
        obtain ⟨hvalue, hothers⟩ := List.forall_mem_cons.mp ih
        rw [normalFields, fieldsDenote, fieldsDenote, hvalue, hrest hothers, Literal.text?_normal]
    rw [normal, denotes, hfields, denotes]
  | _ => rfl

/-! ### Tokens -/

theorem map_itemTokens {items : List Json}
    (h : ∀ item ∈ items, (normal item).tokens = item.tokens.map Token.normal) :
    itemTokens (normalItems items) = (itemTokens items).map Token.normal := by
  induction items with
  | nil => rfl
  | cons item items ih =>
    obtain ⟨hitem, hrest⟩ := List.forall_mem_cons.mp h
    rcases items with _ | ⟨next, items⟩
    · exact hitem
    · rw [normalItems, normalItems, itemTokens_cons_cons, itemTokens_cons_cons, hitem,
        ← normalItems, ih hrest, List.map_append, List.map_cons]
      rfl

theorem map_fieldTokens {fields : List (Literal × Json)}
    (h : ∀ field ∈ fields, (normal field.2).tokens = field.2.tokens.map Token.normal) :
    fieldTokens (normalFields fields) = (fieldTokens fields).map Token.normal := by
  induction fields with
  | nil => rfl
  | cons field fields ih =>
    obtain ⟨hvalue, hrest⟩ := List.forall_mem_cons.mp h
    rcases fields with _ | ⟨next, fields⟩
    · simp only [normalFields, fieldTokens, hvalue, List.map_cons]
      rfl
    · rw [normalFields, normalFields, fieldTokens_cons_cons, fieldTokens_cons_cons, hvalue,
        ← normalFields, ih hrest]
      simp [Token.normal]

theorem tokens_normal (v : Json) : v.normal.tokens = v.tokens.map Token.normal := by
  induction v using Json.induct with
  | array items ih =>
    rw [normal, tokens, tokens, map_itemTokens ih]
    simp [Token.normal]
  | object fields ih =>
    rw [normal, tokens, tokens, map_fieldTokens ih]
    simp [Token.normal]
  | _ => rfl

/-! ### Building -/

namespace Builder

def normalField (field : Literal × Json) : Literal × Json :=
  (field.1.normal, field.2.normal)

def normalFrame : Frame → Frame
  | .array before => .array (before.map Json.normal)
  | .object before name => .object (before.map normalField) name.normal

def normal : Builder → Builder
  | .awaitValue around => .awaitValue (around.map normalFrame)
  | .awaitItem around => .awaitItem (around.map normalFrame)
  | .awaitField around => .awaitField (around.map normalFrame)
  | .awaitName before around => .awaitName (before.map normalField) (around.map normalFrame)
  | .awaitColon before name around =>
    .awaitColon (before.map normalField) name.normal (around.map normalFrame)
  | .complete value around => .complete value.normal (around.map normalFrame)

theorem begin_normal (around : List Frame) (t : Token) :
    begin (around.map normalFrame) t.normal = (begin around t).map normal := by
  cases t with
  | _ => rfl

theorem close_normal (value : Json) (around : List Frame) (t : Token) :
    close value.normal (around.map normalFrame) t.normal = (close value around t).map normal := by
  rcases around with _ | ⟨before | ⟨before, name⟩, around⟩
  · rfl
  · cases t with
    | closeArray => simp [close, normalFrame, normal, Token.normal, Json.normal, normalItems_eq]
    | _ => rfl
  · cases t with
    | closeObject =>
      simp [close, normalFrame, normal, normalField, Token.normal, Json.normal, normalFields_eq]
    | _ => rfl

/-- A step of the builder does not depend on how texts are spelled. -/
theorem take_normal (b : Builder) (t : Token) :
    b.normal.take t.normal = (b.take t).map normal := by
  cases b with
  | awaitValue around => exact begin_normal around t
  | awaitItem around =>
    cases t with
    | _ => rfl
  | awaitField around =>
    cases t with
    | _ => rfl
  | awaitName before around =>
    cases t with
    | _ => rfl
  | awaitColon before name around =>
    cases t with
    | _ => rfl
  | complete value around => exact close_normal value around t

theorem foldlM_normal (ts : List Token) (b : Builder) :
    (ts.map Token.normal).foldlM take b.normal = (ts.foldlM take b).map normal := by
  induction ts generalizing b with
  | nil => rfl
  | cons t ts ih =>
    rw [List.map_cons, List.foldlM_cons, List.foldlM_cons, take_normal]
    cases b.take t with
    | none => rfl
    | some next => exact ih next

theorem finish_normal (b : Builder) : b.normal.finish = b.finish.map Json.normal := by
  cases b with
  | complete value around =>
    cases around with
    | nil => rfl
    | cons frame around => rfl
  | _ => rfl

end Builder

theorem ofTokens?_normal (ts : List Token) :
    ofTokens? (ts.map Token.normal) = (ofTokens? ts).map normal := by
  have hrun := Builder.foldlM_normal ts (.awaitValue [])
  rw [Builder.normal, List.map_nil] at hrun
  rw [ofTokens?, ofTokens?, hrun]
  cases ts.foldlM Builder.take (.awaitValue []) with
  | none => rfl
  | some b => exact b.finish_normal

/-- Tokens that differ from those of a value in spelling alone are the tokens of a value that
    differs in spelling alone. -/
theorem exists_ofTokens? {ts : List Token} {v : Json}
    (h : ts.map Token.normal = v.tokens.map Token.normal) :
    ∃ w, ofTokens? ts = some w ∧ w.normal = v.normal := by
  have hbuild : (ofTokens? ts).map normal = some v.normal := by
    rw [← ofTokens?_normal, h, ← tokens_normal, ofTokens?_tokens]
  exact Option.map_eq_some_iff.mp hbuild

end Microboard.Json
