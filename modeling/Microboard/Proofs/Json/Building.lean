import Microboard.Json.Tree

/-!
# Rebuilding a value

A builder that takes the tokens of a value where a value must come ends up with that value, whatever
stands around it: `foldlM_tokens`. The tokens of a value therefore determine it:
`ofTokens?_tokens`. A builder takes no other tokens than those of what it has built:
`tokens_of_ofTokens?`.
-/

namespace Microboard.Json

/-- Induction over a value, with the parts of arrays and objects as members of their lists. -/
@[elab_as_elim]
theorem induct {motive : Json → Prop} (null : motive .null) (bool : ∀ value, motive (.bool value))
    (number : ∀ value, motive (.number value)) (string : ∀ value, motive (.string value))
    (array : ∀ items, (∀ item ∈ items, motive item) → motive (.array items))
    (object : ∀ fields, (∀ field ∈ fields, motive field.2) → motive (.object fields))
    (v : Json) : motive v := by
  refine @Json.rec motive (fun items => ∀ item ∈ items, motive item)
    (fun fields => ∀ field ∈ fields, motive field.2) (fun field => motive field.2) null bool number
    string array object ?_ ?_ ?_ ?_ (fun _ _ h => h) v
  · intro item hitem
    cases hitem
  · intro item items hfirst hrest
    exact List.forall_mem_cons.mpr ⟨hfirst, hrest⟩
  · intro field hfield
    cases hfield
  · intro field fields hfirst hrest
    exact List.forall_mem_cons.mpr ⟨hfirst, hrest⟩

theorem itemTokens_cons_cons (item next : Json) (items : List Json) :
    itemTokens (item :: next :: items) = item.tokens ++ .comma :: itemTokens (next :: items) := by
  rw [itemTokens]
  rintro ⟨⟩

theorem fieldTokens_cons_cons (name : Literal) (value : Json) (next : Literal × Json)
    (fields : List (Literal × Json)) :
    fieldTokens ((name, value) :: next :: fields) =
      .string name :: .colon :: value.tokens ++ .comma :: fieldTokens (next :: fields) := by
  rw [fieldTokens, List.cons_append, List.cons_append]
  rintro ⟨⟩

namespace Builder

/-- The tokens of the value lead from where a value must come to the complete value. -/
def Rebuilds (v : Json) : Prop :=
  ∀ around, v.tokens.foldlM take (.awaitValue around) = some (.complete v around)

theorem Rebuilds.foldlM_append {v : Json} (h : Rebuilds v) (ts : List Token)
    (around : List Frame) :
    (v.tokens ++ ts).foldlM take (.awaitValue around) = ts.foldlM take (.complete v around) := by
  rw [List.foldlM_append, h around]
  rfl

theorem tokens_eq_cons (v : Json) : ∃ t ts, v.tokens = t :: ts ∧ t ≠ .closeArray := by
  cases v with
  | _ => exact ⟨_, _, rfl, by rintro ⟨⟩⟩

theorem foldlM_itemTokens {item : Json} {items : List Json}
    (h : ∀ each ∈ item :: items, Rebuilds each) (before : List Json) (around : List Frame) :
    (itemTokens (item :: items) ++ [Token.closeArray]).foldlM take
        (.awaitValue (.array before :: around)) =
      some (.complete (.array (before.reverse ++ item :: items)) around) := by
  induction items generalizing item before with
  | nil =>
    rw [itemTokens, (h item List.mem_cons_self).foldlM_append]
    simp [take, close]
  | cons next items ih =>
    have hrest := ih (fun each heach => h each (List.mem_cons_of_mem item heach)) (item :: before)
    rw [itemTokens_cons_cons, List.append_assoc, (h item List.mem_cons_self).foldlM_append]
    simp only [List.cons_append, List.foldlM_cons, take, close, Option.bind_eq_bind,
      Option.bind_some, hrest, List.reverse_cons, List.append_assoc, List.nil_append]

/-- The end of the array can come in place of its first item, but no value begins with it. -/
theorem foldlM_array {items : List Json} (h : ∀ item ∈ items, Rebuilds item) :
    Rebuilds (.array items) := by
  intro around
  rw [tokens, List.cons_append, List.foldlM_cons]
  rcases items with _ | ⟨item, items⟩
  · rfl
  · have hitems := foldlM_itemTokens h [] around
    have hstart : ∃ t ts, itemTokens (item :: items) = t :: ts ∧ t ≠ .closeArray := by
      obtain ⟨t, ts, htokens, hne⟩ := tokens_eq_cons item
      rcases items with _ | ⟨next, items⟩
      · exact ⟨t, ts, htokens, hne⟩
      · exact ⟨t, _, by rw [itemTokens_cons_cons, htokens, List.cons_append], hne⟩
    obtain ⟨t, ts, htokens, hne⟩ := hstart
    have htake : (awaitItem around).take t = (awaitValue (.array [] :: around)).take t := by
      cases t with
      | closeArray => exact absurd rfl hne
      | _ => rfl
    have hopen : (awaitValue around).take .openArray = some (awaitItem around) := rfl
    rw [htokens, List.cons_append, List.foldlM_cons] at hitems
    rw [htokens, List.cons_append, hopen, Option.bind_eq_bind, Option.bind_some, List.foldlM_cons,
      htake]
    exact hitems

theorem foldlM_fieldTokens {field : Literal × Json} {fields : List (Literal × Json)}
    (h : ∀ each ∈ field :: fields, Rebuilds each.2) (before : List (Literal × Json))
    (around : List Frame) :
    (fieldTokens (field :: fields) ++ [Token.closeObject]).foldlM take (.awaitName before around) =
      some (.complete (.object (before.reverse ++ field :: fields)) around) := by
  obtain ⟨name, value⟩ := field
  have hvalue : Rebuilds value := h (name, value) List.mem_cons_self
  induction fields generalizing name value before with
  | nil =>
    simp only [fieldTokens, List.cons_append, List.foldlM_cons, take, Option.bind_eq_bind,
      Option.bind_some, hvalue.foldlM_append]
    simp [close]
  | cons next fields ih =>
    obtain ⟨nextName, nextValue⟩ := next
    have hall : ∀ each ∈ (nextName, nextValue) :: fields, Rebuilds each.2 :=
      fun each heach => h each (List.mem_cons_of_mem _ heach)
    have hrest := ih ((name, value) :: before) nextName nextValue hall (hall _ List.mem_cons_self)
    rw [fieldTokens_cons_cons]
    simp only [List.cons_append, List.append_assoc, List.foldlM_cons, take, Option.bind_eq_bind,
      Option.bind_some, hvalue.foldlM_append, close, hrest, List.reverse_cons, List.nil_append]

theorem foldlM_object {fields : List (Literal × Json)}
    (h : ∀ field ∈ fields, Rebuilds field.2) : Rebuilds (.object fields) := by
  intro around
  rw [tokens, List.cons_append, List.foldlM_cons]
  rcases fields with _ | ⟨⟨name, value⟩, fields⟩
  · rfl
  · have hfields := foldlM_fieldTokens h [] around
    rcases fields with _ | ⟨next, fields⟩
    · exact hfields
    · exact hfields

theorem foldlM_tokens (v : Json) : Rebuilds v := by
  induction v using Json.induct with
  | null => exact fun _ => rfl
  | bool value => exact fun _ => rfl
  | number value => exact fun _ => rfl
  | string value => exact fun _ => rfl
  | array items ih => exact foldlM_array ih
  | object fields ih => exact foldlM_object ih

end Builder

/-- The tokens of a value are those of no other value. -/
theorem ofTokens?_tokens (v : Json) : ofTokens? v.tokens = some v := by
  rw [ofTokens?, Builder.foldlM_tokens v []]
  rfl

/-! ### What has been taken -/

def itemsAhead (items : List Json) : List Token :=
  items.flatMap fun item => item.tokens ++ [.comma]

def fieldsAhead (fields : List (Literal × Json)) : List Token :=
  fields.flatMap fun (name, value) => .string name :: .colon :: value.tokens ++ [.comma]

theorem itemTokens_concat (items : List Json) (item : Json) :
    itemTokens (items ++ [item]) = itemsAhead items ++ item.tokens := by
  induction items with
  | nil => rfl
  | cons first items ih =>
    rw [itemsAhead, List.flatMap_cons, List.append_assoc, List.append_assoc, ← itemsAhead, ← ih]
    rcases items with _ | ⟨next, items⟩
    · rfl
    · exact itemTokens_cons_cons first next (items ++ [item])

theorem fieldTokens_concat (fields : List (Literal × Json)) (name : Literal) (value : Json) :
    fieldTokens (fields ++ [(name, value)]) =
      fieldsAhead fields ++ .string name :: .colon :: value.tokens := by
  induction fields with
  | nil => rfl
  | cons first fields ih =>
    rw [fieldsAhead, List.flatMap_cons, List.append_assoc, List.append_assoc, ← fieldsAhead, ← ih]
    rcases fields with _ | ⟨next, fields⟩
    · rfl
    · exact fieldTokens_cons_cons first.1 first.2 next (fields ++ [(name, value)])

namespace Builder

/-- The tokens that opened arrays and objects have taken, up to where the next value must come. -/
def openTokens : List Frame → List Token
  | [] => []
  | .array before :: around => openTokens around ++ .openArray :: itemsAhead before.reverse
  | .object before name :: around =>
    openTokens around ++ .openObject :: fieldsAhead before.reverse ++ [.string name, .colon]

def taken : Builder → List Token
  | .awaitValue around => openTokens around
  | .awaitItem around => openTokens around ++ [.openArray]
  | .awaitField around => openTokens around ++ [.openObject]
  | .awaitName before around => openTokens around ++ .openObject :: fieldsAhead before.reverse
  | .awaitColon before name around =>
    openTokens around ++ .openObject :: fieldsAhead before.reverse ++ [.string name]
  | .complete value around => openTokens around ++ value.tokens

theorem taken_begin {around : List Frame} {t : Token} {b : Builder}
    (h : begin around t = some b) : b.taken = openTokens around ++ [t] := by
  cases t with
  | closeArray | closeObject | colon | comma => cases h
  | _ =>
    cases h
    rfl

theorem taken_close {value : Json} {around : List Frame} {t : Token} {b : Builder}
    (h : close value around t = some b) : b.taken = openTokens around ++ value.tokens ++ [t] := by
  rcases around with _ | ⟨before | ⟨before, name⟩, around⟩
  · cases h
  · cases t with
    | comma =>
      cases h
      simp [taken, openTokens, itemsAhead]
    | closeArray =>
      cases h
      simp [taken, openTokens, tokens, itemTokens_concat]
    | _ => cases h
  · cases t with
    | comma =>
      cases h
      simp [taken, openTokens, fieldsAhead]
    | closeObject =>
      cases h
      simp [taken, openTokens, tokens, fieldTokens_concat]
    | _ => cases h

theorem taken_take {b next : Builder} {t : Token} (h : b.take t = some next) :
    next.taken = b.taken ++ [t] := by
  cases b with
  | awaitValue around => exact taken_begin h
  | awaitItem around =>
    by_cases hclose : t = .closeArray
    · subst hclose
      cases h
      simp [taken, tokens, itemTokens]
    · have hbegin : begin (.array [] :: around) t = some next := by
        rw [← h]
        cases t with
        | closeArray => exact absurd rfl hclose
        | _ => rfl
      exact taken_begin hbegin
  | awaitField around =>
    cases t with
    | closeObject =>
      cases h
      simp [taken, tokens, fieldTokens]
    | string name =>
      cases h
      simp [taken, fieldsAhead]
    | _ => cases h
  | awaitName before around =>
    cases t with
    | string name =>
      cases h
      simp [taken]
    | _ => cases h
  | awaitColon before name around =>
    cases t with
    | colon =>
      cases h
      simp [taken, openTokens]
    | _ => cases h
  | complete value around => exact taken_close h

theorem taken_foldlM {ts : List Token} {b last : Builder} (h : ts.foldlM take b = some last) :
    last.taken = b.taken ++ ts := by
  induction ts generalizing b with
  | nil =>
    cases h
    exact (List.append_nil _).symm
  | cons t ts ih =>
    rw [List.foldlM_cons] at h
    obtain ⟨next, hnext, hrest⟩ := Option.bind_eq_some_iff.mp h
    rw [ih hrest, taken_take hnext, List.append_assoc, List.singleton_append]

end Builder

/-- A value is built from its own tokens only. -/
theorem tokens_of_ofTokens? {ts : List Token} {v : Json} (h : ofTokens? ts = some v) :
    v.tokens = ts := by
  obtain ⟨last, hlast, hfinish⟩ := Option.bind_eq_some_iff.mp h
  have htaken := Builder.taken_foldlM hlast
  cases last with
  | complete value around =>
    cases around with
    | nil =>
      cases hfinish
      exact htaken
    | cons frame around => cases hfinish
  | _ => cases hfinish

end Microboard.Json
