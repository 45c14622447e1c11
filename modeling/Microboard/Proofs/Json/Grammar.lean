import Microboard.Proofs.Json.Normal
import Microboard.Proofs.Json.RoundTrip

/-!
# Every way to write a value

`Json.Spells` is the grammar of JSON texts, free of the scanner: tokens with blanks around them, and
a literal spelled in any way that gives its text. Every text of a value is read as that value, up to
the spelling of literals: `Spells.read?`. Every text from which a value is read that denotes
something is a text of that value: `spells_of_read?`. With literals known by their code points,
what is read from a text is exactly the value that is written there: `read?_eq_some_iff`.
-/

namespace Microboard.Json

namespace Token

/-- How a token is written: a literal spells its text, a number is one of the ways to write it, and
    all other tokens are written in one way only. -/
def Spells : Token → List Char → Prop
  | .string l, cs =>
    ∃ text body, l.text? = some text ∧ Literal.Spelling text.toList body ∧
      cs = '"' :: body ++ ['"']
  | t, cs => t.Stands cs

/-! ### Literals by their texts and by their code points -/

theorem Stands.spells {t : Token} {cs : List Char} (h : t.Stands cs) (ht : t.Denotes) :
    t.Spells cs := by
  cases t with
  | string l =>
    obtain ⟨body, hbody, rfl⟩ := h
    obtain ⟨text, hl⟩ := Option.isSome_iff_exists.mp ht
    obtain ⟨chars, hchars, rfl⟩ := Option.map_eq_some_iff.mp hl
    refine ⟨_, body, hl, ?_, rfl⟩
    rw [String.toList_ofList]
    exact Literal.spelling_iff.mpr ⟨l.points, hbody, hchars⟩
  | _ => exact h

theorem Spells.stands {t : Token} {cs : List Char} (h : t.Spells cs) :
    ∃ u : Token, u.Stands cs ∧ u.normal = t.normal := by
  by_cases hstring : ∃ l, t = .string l
  · obtain ⟨l, rfl⟩ := hstring
    obtain ⟨text, body, hl, hspelling, rfl⟩ := h
    obtain ⟨ps, hps, hchars⟩ := Literal.spelling_iff.mp hspelling
    have htext : Literal.text? ⟨ps⟩ = l.text? := by
      rw [Literal.text?, hchars, hl, Option.map_some, String.ofList_toList]
    refine ⟨.string ⟨ps⟩, ⟨body, hps, rfl⟩, ?_⟩
    exact congrArg Token.string (Literal.normal_eq (by rw [hl]; rfl) htext)
  · refine ⟨t, ?_, rfl⟩
    cases t with
    | string l => exact absurd ⟨l, rfl⟩ hstring
    | _ => exact h

theorem Row.spells {ts : List Token} {cs : List Char} (h : Row Stands ts cs)
    (hts : ∀ t ∈ ts, t.Denotes) : Row Spells ts cs := by
  induction h with
  | done => exact .done
  | blank hc _ ih => exact .blank hc (ih hts)
  | token ht _ ih =>
    obtain ⟨hfirst, hrest⟩ := List.forall_mem_cons.mp hts
    exact .token (ht.spells hfirst) (ih hrest)

theorem Row.stands {ts : List Token} {cs : List Char} (h : Row Spells ts cs) :
    ∃ us, Row Stands us cs ∧ us.map normal = ts.map normal := by
  induction h with
  | done => exact ⟨[], .done, rfl⟩
  | blank hc _ ih =>
    obtain ⟨us, hus, hnormal⟩ := ih
    exact ⟨us, .blank hc hus, hnormal⟩
  | token ht _ ih =>
    obtain ⟨us, hus, hnormal⟩ := ih
    obtain ⟨u, hu, hsame⟩ := ht.stands
    exact ⟨u :: us, .token hu hus, by rw [List.map_cons, List.map_cons, hsame, hnormal]⟩

/-- Any token but a number that is too large. -/
def Fits : Token → Prop
  | .number n => n.overflows = false
  | _ => True

theorem fits_of_isMark (t : Token) (h : t.isMark = true) : t.Fits := by
  cases t with
  | number n => cases h
  | _ => trivial

/-- What is written by the grammar denotes something, apart from numbers that are too large. -/
theorem Row.denotes {ts : List Token} {cs : List Char} (h : Row Spells ts cs)
    (hfits : ∀ t ∈ ts, t.Fits) : ∀ t ∈ ts, t.Denotes := by
  induction h with
  | done => exact List.forall_mem_nil _
  | blank _ _ ih => exact ih hfits
  | @token t _ _ ts ht _ ih =>
    obtain ⟨hfirst, hrest⟩ := List.forall_mem_cons.mp hfits
    refine List.forall_mem_cons.mpr ⟨?_, ih hrest⟩
    cases t with
    | number n => exact hfirst
    | string l =>
      obtain ⟨text, _, hl, -, -⟩ := ht
      exact Option.isSome_iff_exists.mpr ⟨text, hl⟩
    | _ => trivial

end Token

/-! ### Texts of values -/

/-- A text is one of those in which a value can be written: its tokens stand in a row, with blanks
    and escapes at will. -/
def Spells (v : Json) (text : String) : Prop :=
  Token.Row Token.Spells v.tokens text.toList

def NumbersFit (v : Json) : Prop :=
  ∀ t ∈ v.tokens, t.Fits

theorem numbersFit_array {items : List Json} :
    (Json.array items).NumbersFit ↔ ∀ item ∈ items, item.NumbersFit :=
  forall_tokens_array Token.fits_of_isMark

theorem numbersFit_object {fields : List (Literal × Json)} :
    (Json.object fields).NumbersFit ↔ ∀ field ∈ fields, field.2.NumbersFit :=
  (forall_tokens_object Token.fits_of_isMark).trans
    (forall₂_congr fun _ _ => and_iff_right trivial)

theorem numbersFit_of_denotes {v : Json} (h : v.denotes = true) : v.NumbersFit := by
  intro t ht
  have hdenotes := denotes_iff.mp h t ht
  cases t with
  | number n => exact hdenotes
  | _ => trivial

theorem Spells.denotes {v : Json} {text : String} (h : v.Spells text) (hfits : v.NumbersFit) :
    v.denotes = true :=
  denotes_iff.mpr (Token.Row.denotes h hfits)

theorem isWord_normal (t : Token) : t.normal.isWord = t.isWord := by
  cases t with
  | _ => rfl

/-- No two words meet, however literals are spelled. -/
theorem isChain_of_normal {ts : List Token} {v : Json}
    (h : ts.map Token.normal = v.tokens.map Token.normal) : ts.IsChain Token.Apart := by
  have hchain := isChain_tokens v.normal
  rw [tokens_normal, ← h, List.isChain_map] at hchain
  refine hchain.imp ?_
  intro t u hapart
  rwa [Token.Apart, isWord_normal, isWord_normal] at hapart

/-- Every text of a value is read, and what is read differs from it in the spelling of literals at
    most. -/
theorem Spells.read? {v : Json} {text : String} (h : v.Spells text) :
    ∃ w, Json.read? text = some w ∧ w.normal = v.normal := by
  obtain ⟨ts, hrow, hnormal⟩ := Token.Row.stands h
  obtain ⟨w, hbuild, hw⟩ := exists_ofTokens? hnormal
  refine ⟨w, ?_, hw⟩
  rw [Json.read?, hrow.scan? (isChain_of_normal hnormal)]
  exact hbuild

/-- Every text from which something is read that denotes a value is one of the texts of that
    value. -/
theorem spells_of_read? {v : Json} {text : String} (h : Json.read? text = some v)
    (hdenotes : v.denotes = true) : v.Spells text := by
  obtain ⟨ts, hscan, hbuild⟩ := Option.bind_eq_some_iff.mp h
  have hrow := Token.row_of_scan? hscan
  rw [← tokens_of_ofTokens? hbuild] at hrow
  exact hrow.spells (denotes_iff.mp hdenotes)

/-! ### Texts of any value -/

/-- A value is written in a text, whether or not all of it denotes something: its tokens stand in a
    row, with blanks and escapes at will. -/
def Written (v : Json) (text : String) : Prop :=
  Token.Row Token.Stands v.tokens text.toList

theorem read?_eq_some_iff {v : Json} {text : String} :
    Json.read? text = some v ↔ v.Written text := by
  constructor
  · intro h
    obtain ⟨ts, hscan, hbuild⟩ := Option.bind_eq_some_iff.mp h
    rw [Written, tokens_of_ofTokens? hbuild]
    exact Token.row_of_scan? hscan
  · intro h
    rw [Json.read?, Token.Row.scan? h (isChain_tokens v)]
    exact ofTokens?_tokens v

end Microboard.Json
