import Microboard.Proofs.Json.Building
import Microboard.Proofs.Json.Scanning

/-!
# Reading what was written

A plain value, one of texts and of integers of at most 64 bits, is read back from its compact text:
`Plain.read?_compact`. Its text denotes something throughout: `Plain.denotes`.
-/

namespace Microboard.Json

/-- Values made of texts, of integers of at most 64 bits, and of arrays and records of such. -/
inductive Plain : Json → Prop
  | null : Plain .null
  | bool (value : Bool) : Plain (.bool value)
  | int {i : Int} (h : i.natAbs < UInt64.size) : Plain (.int i)
  | text (s : String) : Plain (.text s)
  | array {items : List Json} (h : ∀ item ∈ items, Plain item) : Plain (.array items)
  | record {fields : List (String × Json)} (h : ∀ field ∈ fields, Plain field.2) :
      Plain (.record fields)

/-! ### The tokens of a plain value -/

/-- Tokens whose numbers are integers of at most 64 bits, and whose literals are texts. -/
def Token.Plain : Token → Prop
  | .number n => ∃ i : Int, i.natAbs < UInt64.size ∧ n = .ofInt i
  | .string l => ∃ s, l = .ofText s
  | _ => True

section

variable {P : List Token → Prop}

/-- What holds of the tokens of each item, and can be carried over a comma, holds of all items. -/
theorem itemTokens_closed (hnil : P []) (hjoin : ∀ l r, P l → P r → P (l ++ .comma :: r))
    {items : List Json} (h : ∀ item ∈ items, P item.tokens) : P (itemTokens items) := by
  induction items with
  | nil => exact hnil
  | cons item items ih =>
    obtain ⟨hitem, hrest⟩ := List.forall_mem_cons.mp h
    rcases items with _ | ⟨next, items⟩
    · exact hitem
    · rw [itemTokens_cons_cons]
      exact hjoin _ _ hitem (ih hrest)

theorem fieldTokens_closed (hnil : P []) (hjoin : ∀ l r, P l → P r → P (l ++ .comma :: r))
    {fields : List (Literal × Json)}
    (h : ∀ field ∈ fields, P (.string field.1 :: .colon :: field.2.tokens)) :
    P (fieldTokens fields) := by
  induction fields with
  | nil => exact hnil
  | cons field fields ih =>
    obtain ⟨hfield, hrest⟩ := List.forall_mem_cons.mp h
    rcases fields with _ | ⟨next, fields⟩
    · exact hfield
    · rw [fieldTokens_cons_cons]
      exact hjoin _ _ hfield (ih hrest)

end

def Token.isMark : Token → Bool
  | .null | .bool _ | .number _ | .string _ => false
  | _ => true

section

variable {Q : Token → Prop} (hmark : ∀ t : Token, t.isMark = true → Q t)
include hmark

theorem forall_itemTokens {items : List Json} :
    (∀ t ∈ itemTokens items, Q t) ↔ ∀ item ∈ items, ∀ t ∈ item.tokens, Q t := by
  induction items with
  | nil => simp [itemTokens]
  | cons item items ih =>
    rcases items with _ | ⟨next, items⟩
    · rw [itemTokens, List.forall_mem_singleton]
    · rw [itemTokens_cons_cons, List.forall_mem_append, List.forall_mem_cons, ih,
        List.forall_mem_cons (a := item)]
      simp only [hmark .comma rfl, true_and]

theorem forall_fieldTokens {fields : List (Literal × Json)} :
    (∀ t ∈ fieldTokens fields, Q t) ↔
      ∀ field ∈ fields, Q (.string field.1) ∧ ∀ t ∈ field.2.tokens, Q t := by
  induction fields with
  | nil => simp [fieldTokens]
  | cons field fields ih =>
    obtain ⟨name, value⟩ := field
    rcases fields with _ | ⟨next, fields⟩
    · rw [fieldTokens, List.forall_mem_cons, List.forall_mem_cons, List.forall_mem_singleton]
      simp only [hmark .colon rfl, true_and]
    · rw [fieldTokens_cons_cons, List.cons_append, List.cons_append, List.forall_mem_cons,
        List.forall_mem_cons, List.forall_mem_append, List.forall_mem_cons, ih,
        List.forall_mem_cons (a := (name, value)), and_assoc]
      simp only [hmark .colon rfl, hmark .comma rfl, true_and]

/-- What holds of punctuation holds of all tokens of an array if it holds of those of its items. -/
theorem forall_tokens_array {items : List Json} :
    (∀ t ∈ (Json.array items).tokens, Q t) ↔ ∀ item ∈ items, ∀ t ∈ item.tokens, Q t := by
  rw [tokens, List.cons_append, List.forall_mem_cons, List.forall_mem_append,
    List.forall_mem_singleton, forall_itemTokens hmark]
  simp only [hmark .openArray rfl, hmark .closeArray rfl, true_and, and_true]

theorem forall_tokens_object {fields : List (Literal × Json)} :
    (∀ t ∈ (Json.object fields).tokens, Q t) ↔
      ∀ field ∈ fields, Q (.string field.1) ∧ ∀ t ∈ field.2.tokens, Q t := by
  rw [tokens, List.cons_append, List.forall_mem_cons, List.forall_mem_append,
    List.forall_mem_singleton, forall_fieldTokens hmark]
  simp only [hmark .openObject rfl, hmark .closeObject rfl, true_and, and_true]

end

theorem Token.plain_of_isMark (t : Token) (h : t.isMark = true) : t.Plain := by
  cases t with
  | number n => cases h
  | string l => cases h
  | _ => trivial

theorem Plain.tokens_plain {v : Json} (h : v.Plain) : ∀ t ∈ v.tokens, t.Plain := by
  induction h with
  | null => exact List.forall_mem_singleton.mpr trivial
  | bool value => exact List.forall_mem_singleton.mpr trivial
  | @int i h => exact List.forall_mem_singleton.mpr ⟨i, h, rfl⟩
  | text s => exact List.forall_mem_singleton.mpr ⟨s, rfl⟩
  | array h ih => exact (forall_tokens_array Token.plain_of_isMark).mpr ih
  | @record fields h ih =>
    refine (forall_tokens_object Token.plain_of_isMark).mpr fun field hfield => ?_
    obtain ⟨⟨name, value⟩, hgiven, rfl⟩ := List.mem_map.mp hfield
    exact ⟨⟨name, rfl⟩, ih _ hgiven⟩

theorem Token.Plain.stands {t : Token} (h : t.Plain) : t.Stands t.lexeme := by
  cases t with
  | number n =>
    obtain ⟨i, -, rfl⟩ := h
    exact Number.ofChars?_lexeme i
  | string l =>
    obtain ⟨s, rfl⟩ := h
    exact ⟨_, Literal.spells_ofText s, rfl⟩
  | _ => rfl

theorem Token.row_lexemes {ts : List Token} (h : ∀ t ∈ ts, t.Plain) :
    Row Stands ts (ts.flatMap lexeme) := by
  induction ts with
  | nil => exact .done
  | cons t ts ih =>
    obtain ⟨ht, hrest⟩ := List.forall_mem_cons.mp h
    exact .token ht.stands (ih hrest)

/-! ### Tokens that denote something -/

/-- A number that is not too large, a literal that is a text, or any other token. -/
def Token.Denotes : Token → Prop
  | .number n => n.overflows = false
  | .string l => l.text?.isSome = true
  | _ => True

theorem itemsDenote_iff {items : List Json} :
    itemsDenote items = true ↔ ∀ item ∈ items, item.denotes = true := by
  induction items with
  | nil => simp [itemsDenote]
  | cons item items ih => rw [itemsDenote, Bool.and_eq_true, ih, List.forall_mem_cons]

theorem fieldsDenote_iff {fields : List (Literal × Json)} :
    fieldsDenote fields = true ↔
      ∀ field ∈ fields, field.1.text?.isSome = true ∧ field.2.denotes = true := by
  induction fields with
  | nil => simp [fieldsDenote]
  | cons field fields ih =>
    rw [fieldsDenote, Bool.and_eq_true, Bool.and_eq_true, ih, List.forall_mem_cons]

theorem Token.denotes_of_isMark (t : Token) (h : t.isMark = true) : t.Denotes := by
  cases t with
  | number n => cases h
  | string l => cases h
  | _ => trivial

theorem Token.Plain.denotes {t : Token} (h : t.Plain) : t.Denotes := by
  cases t with
  | number n =>
    obtain ⟨i, hi, rfl⟩ := h
    exact Number.overflows_ofInt hi
  | string l =>
    obtain ⟨s, rfl⟩ := h
    exact Option.isSome_iff_exists.mpr ⟨s, Literal.text?_ofText s⟩
  | _ => trivial

/-- A value denotes something if all its tokens do. -/
theorem denotes_iff {v : Json} : v.denotes = true ↔ ∀ t ∈ v.tokens, t.Denotes := by
  induction v using Json.induct with
  | null => exact ⟨fun _ => List.forall_mem_singleton.mpr trivial, fun _ => rfl⟩
  | bool value => exact ⟨fun _ => List.forall_mem_singleton.mpr trivial, fun _ => rfl⟩
  | number n =>
    rw [denotes, tokens, List.forall_mem_singleton, Bool.not_eq_true']
    rfl
  | string l =>
    rw [denotes, tokens, List.forall_mem_singleton]
    rfl
  | array items ih =>
    rw [denotes, itemsDenote_iff, forall_tokens_array Token.denotes_of_isMark]
    exact forall₂_congr ih
  | object fields ih =>
    rw [denotes, fieldsDenote_iff, forall_tokens_object Token.denotes_of_isMark]
    exact forall₂_congr fun field hfield => and_congr_right fun _ => ih field hfield

/-! ### Words stand apart -/

/-- A token that is no word keeps apart what stands on its two sides. -/
theorem Token.isChain_around {t : Token} (ht : t.isWord = false) (l r : List Token)
    (hl : l.IsChain Apart) (hr : r.IsChain Apart) : (l ++ t :: r).IsChain Apart := by
  have hbehind : (t :: r).IsChain Apart := by
    refine List.isChain_cons.mpr ⟨fun u _ hword => ?_, hr⟩
    rw [ht] at hword
    cases hword
  refine List.isChain_append.mpr ⟨hl, hbehind, fun s _ u hu _ => ?_⟩
  cases hu
  exact ht

theorem isChain_tokens (v : Json) : v.tokens.IsChain Token.Apart := by
  have hnil : ([] : List Token).IsChain Token.Apart := List.IsChain.nil
  induction v using Json.induct with
  | array items ih =>
    have hitems : (itemTokens items).IsChain Token.Apart :=
      itemTokens_closed hnil (Token.isChain_around rfl) ih
    have hopen : (.openArray :: itemTokens items).IsChain Token.Apart :=
      Token.isChain_around rfl [] _ hnil hitems
    exact Token.isChain_around (t := .closeArray) rfl _ _ hopen hnil
  | object fields ih =>
    have hfields : (fieldTokens fields).IsChain Token.Apart := by
      refine fieldTokens_closed hnil (Token.isChain_around rfl) fun field hfield => ?_
      have hname : [Token.string field.1].IsChain Token.Apart := List.IsChain.singleton _
      exact Token.isChain_around (t := .colon) rfl _ _ hname (ih field hfield)
    have hopen : (.openObject :: fieldTokens fields).IsChain Token.Apart :=
      Token.isChain_around rfl [] _ hnil hfields
    exact Token.isChain_around (t := .closeObject) rfl _ _ hopen hnil
  | _ => exact List.IsChain.singleton _

/-! ### Reading -/

namespace Plain

theorem int64 (value : Int64) : (Json.int64 value).Plain := by
  refine .int ?_
  obtain ⟨hlow, hhigh⟩ := int64_bounds value
  have hmin : Int64.minValue.toInt = -2 ^ 63 := by decide
  have hmax : Int64.maxValue.toInt = 2 ^ 63 - 1 := by decide
  have hsize : UInt64.size = 2 ^ 64 := rfl
  omega

theorem scan?_compact {v : Json} (h : v.Plain) : Token.scan? v.compact.toList = some v.tokens := by
  rw [compact, String.toList_ofList]
  exact (Token.row_lexemes h.tokens_plain).scan? (isChain_tokens v)

theorem read?_compact {v : Json} (h : v.Plain) : read? v.compact = some v := by
  rw [read?, h.scan?_compact]
  exact ofTokens?_tokens v

theorem denotes {v : Json} (h : v.Plain) : v.denotes = true :=
  denotes_iff.mpr fun t ht => (h.tokens_plain t ht).denotes

end Plain

end Microboard.Json
