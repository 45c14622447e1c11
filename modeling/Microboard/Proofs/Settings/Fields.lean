import Microboard.Proofs.Json.Form
import Microboard.Proofs.Json.Grammar
import Microboard.Settings.Reading
import Microboard.Settings.Written

/-!
# Settings field by field

Any of the fields of settings can be written, in any order and among other fields, and so can any of
the fields of the screen inside. What is read has the written values there and the defaults
everywhere else. A known field that is written twice, and a value that is no integer of the type of
its field, make the text malformed. `read_by_field` says so for every text.
-/

namespace Microboard

open Json (Form Literal fieldOr)

/-! ### One field -/

/-- Under a name, fields show one value with a property if the name is among those `given`, and no
    value otherwise. -/
def Json.Shows (fields : List (Literal × Json)) (given : List String) (name : String)
    (is : Json → Prop) : Prop :=
  if name ∈ given then ∃ value, Form.parts name fields = [value] ∧ is value
  else Form.parts name fields = []

theorem Json.Shows.exists_arg {fields : List (Literal × Json)} {given : List String}
    {name : String} {is : Json → Prop} (h : Json.Shows fields given name is) {α : Type}
    {read? : Json → Option α} {a : α} (hread : ∀ value, is value → read? value = some a)
    (fallback : α) :
    ∃ arg : Option Json, Form.parts name fields = arg.toList ∧
      fieldOr fallback read? arg = some (if name ∈ given then a else fallback) := by
  unfold Json.Shows at h
  split at h
  · next hgiven =>
    obtain ⟨value, hparts, his⟩ := h
    refine ⟨some value, hparts, ?_⟩
    rw [if_pos hgiven]
    exact hread value his
  · next hgiven =>
    refine ⟨none, h, ?_⟩
    rw [if_neg hgiven]
    rfl

/-- Fields with different names show the values that they have. -/
theorem Json.shows_spelled {fields : List (String × Json)} (h : (fields.map Prod.fst).Nodup)
    {given : List String} {name : String} {value : Json} (hmem : (name, value) ∈ fields)
    (hgiven : name ∈ given) {is : Json → Prop} (his : is value) :
    Json.Shows (Form.spelled fields) given name is := by
  rw [Json.Shows, if_pos hgiven]
  exact ⟨value, Form.parts_of_mem h hmem, his⟩

/-- Fields with these names that cannot be read: one of the names is written twice, or another one
    is no text. -/
inductive Json.Muddled (names : List String) (fields : List (Literal × Json)) : Prop
  | twice {name : String} (hname : name ∈ names) (h : 2 ≤ (Form.parts name fields).length)
  | nameless {l : Literal} {value : Json} (hmem : (l, value) ∈ fields) (h : l.text? = none)

theorem Json.Muddled.arguments?_eq_none {names : List String} {fields : List (Literal × Json)}
    (h : Json.Muddled names fields) : (Form.named fields).arguments? names = none := by
  rw [Option.eq_none_iff_forall_ne_some]
  intro args hargs
  cases h with
  | twice hname htwice =>
    obtain ⟨arg, -, hparts⟩ := Form.exists_mem_zip hargs hname
    have hone : arg.toList.length ≤ 1 := by
      cases arg with
      | none => exact Nat.zero_le 1
      | some value => exact Nat.le_refl 1
    rw [hparts] at htwice
    omega
  | nameless hmem htext =>
    have hsome := (Form.arguments?_named_eq_some_iff.mp hargs).1 _ hmem
    rw [htext] at hsome
    cases hsome

/-! ### The screen -/

namespace Geometry

def names : List String :=
  ["width", "height", "line_height", "glyph_advance", "top_line"]

/-- The geometry in the `given` fields, and the default in the others. -/
def overlay (g : Geometry) (given : List String) : Geometry :=
  let fallback : Geometry := {}
  { width := if "width" ∈ given then g.width else fallback.width
    height := if "height" ∈ given then g.height else fallback.height
    lineHeight := if "line_height" ∈ given then g.lineHeight else fallback.lineHeight
    glyphAdvance := if "glyph_advance" ∈ given then g.glyphAdvance else fallback.glyphAdvance
    topLine := if "top_line" ∈ given then g.topLine else fallback.topLine }

/-- Fields that show a geometry in the `given` fields. There may be fields with other names,
    whatever their values are. -/
structure ShownBy (g : Geometry) (given : List String) (fields : List (Literal × Json)) : Prop where
  texts : ∀ field ∈ fields, field.1.text?.isSome = true
  shows : ∀ field ∈ g.fields, Json.Shows fields given field.1 fun value =>
    value.int? = some (field.2.toNat : Int)

/-- A value that has no geometry: its fields are muddled, or one of them has a value that is no
    integer of 16 bits. -/
inductive Refused : Json → Prop
  | muddled {fields : List (Literal × Json)} (h : Json.Muddled names fields) :
      Refused (.object fields)
  | outside {v : Json} {form : Form Json} {name : String} {value : Json}
      (hform : v.form? = some form) (h : form.Assigns names name value) (hname : name ∈ names)
      (hvalue : ∀ n : UInt16, value.int? ≠ some (n.toNat : Int)) : Refused v

theorem ofJson?_eq_some_iff {v : Json} {g : Geometry} :
    ofJson? v = some g ↔ ∃ form width height lineHeight glyphAdvance topLine,
      v.form? = some form ∧
      form.arguments? names = some [width, height, lineHeight, glyphAdvance, topLine] ∧
      fieldOr ({} : Geometry).width Json.uint16? width = some g.width ∧
      fieldOr ({} : Geometry).height Json.uint16? height = some g.height ∧
      fieldOr ({} : Geometry).lineHeight Json.uint16? lineHeight = some g.lineHeight ∧
      fieldOr ({} : Geometry).glyphAdvance Json.uint16? glyphAdvance = some g.glyphAdvance ∧
      fieldOr ({} : Geometry).topLine Json.uint16? topLine = some g.topLine := by
  constructor
  · intro h
    obtain ⟨form, hform, h⟩ := Option.bind_eq_some_iff.mp h
    obtain ⟨args, hargs, h⟩ := Option.bind_eq_some_iff.mp h
    split at h
    · simp only [Option.bind_eq_bind, Option.bind_eq_some_iff] at h
      obtain ⟨_, hwidth, _, hheight, _, hline, _, hglyph, _, htop, hg⟩ := h
      cases hg
      exact ⟨form, _, _, _, _, _, hform, hargs, hwidth, hheight, hline, hglyph, htop⟩
    · cases h
  · rintro ⟨form, _, _, _, _, _, hform, hargs, hwidth, hheight, hline, hglyph, htop⟩
    rw [names] at hargs
    simp only [ofJson?, hform, hargs, Option.bind_eq_bind, Option.bind_some, hwidth, hheight, hline,
      hglyph, htop]
    rfl

theorem ofJson?_of_shownBy {g : Geometry} {given : List String} {fields : List (Literal × Json)}
    (h : g.ShownBy given fields) : ofJson? (.object fields) = some (g.overlay given) := by
  have harg (name : String) (n fallback : UInt16) (hmem : (name, n) ∈ g.fields) :=
    (h.shows (name, n) hmem).exists_arg (fun _ => Json.uint16?_eq_some_iff.mpr) fallback
  obtain ⟨width, hwidths, hwidth⟩ :=
    harg "width" g.width ({} : Geometry).width (by simp [Geometry.fields])
  obtain ⟨height, hheights, hheight⟩ :=
    harg "height" g.height ({} : Geometry).height (by simp [Geometry.fields])
  obtain ⟨line, hlines, hline⟩ :=
    harg "line_height" g.lineHeight ({} : Geometry).lineHeight (by simp [Geometry.fields])
  obtain ⟨glyph, hglyphs, hglyph⟩ :=
    harg "glyph_advance" g.glyphAdvance ({} : Geometry).glyphAdvance (by simp [Geometry.fields])
  obtain ⟨top, htops, htop⟩ :=
    harg "top_line" g.topLine ({} : Geometry).topLine (by simp [Geometry.fields])
  have hargs : (Form.named fields).arguments? names = some [width, height, line, glyph, top] :=
    Form.arguments?_named_eq_some_iff.mpr ⟨h.texts,
      .cons hwidths (.cons hheights (.cons hlines (.cons hglyphs (.cons htops .nil))))⟩
  exact ofJson?_eq_some_iff.mpr
    ⟨.named fields, width, height, line, glyph, top, rfl, hargs, hwidth, hheight, hline, hglyph,
      htop⟩

theorem Refused.ofJson?_eq_none {v : Json} (h : Refused v) : ofJson? v = none := by
  rw [Option.eq_none_iff_forall_ne_some]
  intro g hg
  obtain ⟨form, width, height, line, glyph, top, hform, hargs, hwidth, hheight, hline, hglyph,
    htop⟩ := ofJson?_eq_some_iff.mp hg
  cases h with
  | muddled hmuddled =>
    cases hform
    rw [hmuddled.arguments?_eq_none] at hargs
    cases hargs
  | @outside _ form' name value hform' hassigns hname hvalue =>
    cases hform.symm.trans hform'
    have hread : ∀ n, value.uint16? ≠ some n :=
      fun n hn => hvalue n (Json.uint16?_eq_some_iff.mp hn)
    have hmem := hassigns.mem_zip hname hargs
    simp only [names, List.zip_cons_cons, List.zip_nil_right, List.mem_cons, Prod.mk.injEq,
      List.not_mem_nil, or_false] at hmem
    rcases hmem with ⟨-, rfl⟩ | ⟨-, rfl⟩ | ⟨-, rfl⟩ | ⟨-, rfl⟩ | ⟨-, rfl⟩
    · exact hread _ hwidth
    · exact hread _ hheight
    · exact hread _ hline
    · exact hread _ hglyph
    · exact hread _ htop

def jsonFields (g : Geometry) : List (String × Json) :=
  g.fields.map fun (name, n) => (name, .nat n.toNat)

/-- The object of a geometry shows all of it. -/
theorem shownBy_jsonFields (g : Geometry) : g.ShownBy names (Form.spelled g.jsonFields) where
  texts := Form.texts_spelled g.jsonFields
  shows := by
    rintro ⟨name, n⟩ hmem
    have hdistinct : (g.jsonFields.map Prod.fst).Nodup := (by decide : names.Nodup)
    have hname : name ∈ names := List.mem_map_of_mem (f := Prod.fst) hmem
    have hvalue : (name, Json.nat n.toNat) ∈ g.jsonFields :=
      List.mem_map_of_mem (f := fun (name, n) => (name, Json.nat n.toNat)) hmem
    exact Json.shows_spelled hdistinct hvalue hname (Json.int?_int n.toNat)

theorem plain_toJson (g : Geometry) : g.toJson.Plain := by
  refine .record fun field hfield => ?_
  obtain ⟨⟨name, n⟩, -, rfl⟩ := List.mem_map.mp hfield
  have hlt := n.toNat_lt
  have hsize : UInt64.size = 2 ^ 64 := rfl
  exact .int (by omega)

theorem overlay_names (g : Geometry) : g.overlay names = g := rfl

end Geometry

/-! ### Settings -/

namespace Settings

def names : List String :=
  ["steps_per_tick", "adc_default", "screen"]

/-- The settings in the `given` fields, and the defaults in the others. A screen that is given has
    the `inner` fields. -/
def overlay (s : Settings) (given inner : List String) : Settings :=
  let fallback : Settings := {}
  { stepsPerTick := if "steps_per_tick" ∈ given then s.stepsPerTick else fallback.stepsPerTick
    adcDefault := if "adc_default" ∈ given then s.adcDefault else fallback.adcDefault
    screen := if "screen" ∈ given then s.screen.overlay inner else fallback.screen }

/-- Fields that show settings in the `given` fields, and in the `inner` fields of the screen. There
    may be fields with other names, whatever their values are. -/
structure ShownBy (s : Settings) (given inner : List String) (fields : List (Literal × Json)) :
    Prop where
  texts : ∀ field ∈ fields, field.1.text?.isSome = true
  stepsPerTick : Json.Shows fields given "steps_per_tick" fun value =>
    value.int? = some (s.stepsPerTick.toNat : Int)
  adcDefault : Json.Shows fields given "adc_default" fun value =>
    value.int? = some s.adcDefault.toInt
  screen : Json.Shows fields given "screen" fun value =>
    ∃ fields, value = .object fields ∧ s.screen.ShownBy inner fields

/-- A value that has no settings: its fields are muddled, or one of them has a value that is no
    integer of its type or no geometry. -/
inductive Refused : Json → Prop
  | muddled {fields : List (Literal × Json)} (h : Json.Muddled names fields) :
      Refused (.object fields)
  | stepsPerTick {v : Json} {form : Form Json} {value : Json} (hform : v.form? = some form)
      (h : form.Assigns names "steps_per_tick" value)
      (hvalue : ∀ n : UInt32, value.int? ≠ some (n.toNat : Int)) : Refused v
  | adcDefault {v : Json} {form : Form Json} {value : Json} (hform : v.form? = some form)
      (h : form.Assigns names "adc_default" value)
      (hvalue : ∀ n : Int64, value.int? ≠ some n.toInt) : Refused v
  | screen {v : Json} {form : Form Json} {value : Json} (hform : v.form? = some form)
      (h : form.Assigns names "screen" value) (hvalue : Geometry.Refused value) : Refused v

theorem ofJson?_eq_some_iff {v : Json} {s : Settings} :
    ofJson? v = some s ↔ ∃ form steps adc screen, v.form? = some form ∧
      form.arguments? names = some [steps, adc, screen] ∧
      fieldOr ({} : Settings).stepsPerTick Json.uint32? steps = some s.stepsPerTick ∧
      fieldOr ({} : Settings).adcDefault Json.int64? adc = some s.adcDefault ∧
      fieldOr ({} : Settings).screen Geometry.ofJson? screen = some s.screen := by
  constructor
  · intro h
    obtain ⟨form, hform, h⟩ := Option.bind_eq_some_iff.mp h
    obtain ⟨args, hargs, h⟩ := Option.bind_eq_some_iff.mp h
    split at h
    · simp only [Option.bind_eq_bind, Option.bind_eq_some_iff] at h
      obtain ⟨_, hsteps, _, hadc, _, hscreen, hs⟩ := h
      cases hs
      exact ⟨form, _, _, _, hform, hargs, hsteps, hadc, hscreen⟩
    · cases h
  · rintro ⟨form, _, _, _, hform, hargs, hsteps, hadc, hscreen⟩
    rw [names] at hargs
    simp only [ofJson?, hform, hargs, Option.bind_eq_bind, Option.bind_some, hsteps, hadc, hscreen]
    rfl

theorem ofJson?_of_shownBy {s : Settings} {given inner : List String}
    {fields : List (Literal × Json)} (h : s.ShownBy given inner fields) :
    ofJson? (.object fields) = some (s.overlay given inner) := by
  have hgeometry (value : Json)
      (hvalue : ∃ fields, value = .object fields ∧ s.screen.ShownBy inner fields) :
      Geometry.ofJson? value = some (s.screen.overlay inner) := by
    obtain ⟨shown, rfl, hshown⟩ := hvalue
    exact Geometry.ofJson?_of_shownBy hshown
  obtain ⟨steps, hgiven, hsteps⟩ :=
    h.stepsPerTick.exists_arg (fun _ => Json.uint32?_eq_some_iff.mpr) ({} : Settings).stepsPerTick
  obtain ⟨adc, hgiven', hadc⟩ :=
    h.adcDefault.exists_arg (fun _ => Json.int64?_eq_some_iff.mpr) ({} : Settings).adcDefault
  obtain ⟨screen, hgiven'', hscreen⟩ := h.screen.exists_arg hgeometry ({} : Settings).screen
  have hargs : (Form.named fields).arguments? names = some [steps, adc, screen] :=
    Form.arguments?_named_eq_some_iff.mpr
      ⟨h.texts, .cons hgiven (.cons hgiven' (.cons hgiven'' .nil))⟩
  exact ofJson?_eq_some_iff.mpr
    ⟨.named fields, steps, adc, screen, rfl, hargs, hsteps, hadc, hscreen⟩

theorem Refused.ofJson?_eq_none {v : Json} (h : Refused v) : ofJson? v = none := by
  rw [Option.eq_none_iff_forall_ne_some]
  intro s hs
  obtain ⟨form, steps, adc, screen, hform, hargs, hsteps, hadc, hscreen⟩ :=
    ofJson?_eq_some_iff.mp hs
  cases h with
  | muddled hmuddled =>
    cases hform
    rw [hmuddled.arguments?_eq_none] at hargs
    cases hargs
  | @stepsPerTick _ _ value hform' hassigns hvalue =>
    cases hform.symm.trans hform'
    have hgiven : some value = steps := by simpa [names] using hassigns.mem_zip (by decide) hargs
    rw [← hgiven] at hsteps
    exact hvalue _ (Json.uint32?_eq_some_iff.mp hsteps)
  | @adcDefault _ _ value hform' hassigns hvalue =>
    cases hform.symm.trans hform'
    have hgiven : some value = adc := by simpa [names] using hassigns.mem_zip (by decide) hargs
    rw [← hgiven] at hadc
    exact hvalue _ (Json.int64?_eq_some_iff.mp hadc)
  | @screen _ _ value hform' hassigns hvalue =>
    cases hform.symm.trans hform'
    have hgiven : some value = screen := by simpa [names] using hassigns.mem_zip (by decide) hargs
    rw [← hgiven] at hscreen
    cases hscreen.symm.trans hvalue.ofJson?_eq_none

/-! ### What is written -/

theorem shownBy_toJson (s : Settings) :
    ∃ fields, s.toJson = .object fields ∧ s.ShownBy names Geometry.names fields := by
  let fields : List (String × Json) :=
    [("steps_per_tick", .nat s.stepsPerTick.toNat), ("adc_default", .int s.adcDefault.toInt),
      ("screen", s.screen.toJson)]
  have hdistinct : (fields.map Prod.fst).Nodup := (by decide : names.Nodup)
  have hsteps : ("steps_per_tick", Json.nat s.stepsPerTick.toNat) ∈ fields := by simp [fields]
  have hadc : ("adc_default", Json.int s.adcDefault.toInt) ∈ fields := by simp [fields]
  have hscreen : ("screen", s.screen.toJson) ∈ fields := by simp [fields]
  refine ⟨Form.spelled fields, rfl, Form.texts_spelled fields, ?_, ?_, ?_⟩
  · exact Json.shows_spelled hdistinct hsteps (by decide) (Json.int?_int _)
  · exact Json.shows_spelled hdistinct hadc (by decide) (Json.int?_int _)
  · exact Json.shows_spelled hdistinct hscreen (by decide) ⟨_, rfl, s.screen.shownBy_jsonFields⟩

theorem plain_toJson (s : Settings) : s.toJson.Plain := by
  have hlt := s.stepsPerTick.toNat_lt
  have hsize : UInt64.size = 2 ^ 64 := rfl
  have hsteps : (Json.nat s.stepsPerTick.toNat).Plain := .int (by omega)
  refine .record (List.forall_mem_cons.mpr ⟨hsteps, List.forall_mem_cons.mpr ⟨?_, ?_⟩⟩)
  · exact Json.Plain.int64 s.adcDefault
  · exact List.forall_mem_singleton.mpr s.screen.plain_toJson

theorem overlay_names (s : Settings) : s.overlay names Geometry.names = s := rfl

/-! ### Reading -/

theorem read_of_shownBy {s : Settings} {given inner : List String}
    {fields : List (Literal × Json)} {text : String} (htext : (Json.object fields).Written text)
    (h : s.ShownBy given inner fields) : read text = .ok (s.overlay given inner) := by
  rw [read, Json.read?_eq_some_iff.mpr htext, Option.bind_some, ofJson?_of_shownBy h]

theorem read_written (s : Settings) : read s.text = .ok s := by
  obtain ⟨fields, hobject, hshown⟩ := s.shownBy_toJson
  have htext : s.toJson.Written s.text := Json.read?_eq_some_iff.mp s.plain_toJson.read?_compact
  rw [hobject] at htext
  rw [read_of_shownBy htext hshown, overlay_names]

theorem Refused.read_eq {v : Json} {text : String} (h : Refused v) (htext : v.Written text) :
    read text = .error .malformed := by
  rw [read, Json.read?_eq_some_iff.mpr htext, Option.bind_some, h.ofJson?_eq_none]

/-- Every text of an object that shows settings in some fields is read as these settings in those
    fields and the defaults in the others, and the text of settings is read as these settings. A
    text with a known field twice, or with a value that is no integer of the type of its field, is
    malformed. -/
theorem read_by_field (s : Settings) :
    (∀ (given inner : List String) (fields : List (Literal × Json)) (text : String),
        (Json.object fields).Written text → s.ShownBy given inner fields →
          read text = .ok (s.overlay given inner)) ∧
      read s.text = .ok s ∧
      ∀ (v : Json) (text : String), v.Written text → Refused v →
        read text = .error .malformed := by
  refine ⟨?_, s.read_written, ?_⟩
  · intro given inner fields text htext hshown
    exact read_of_shownBy htext hshown
  · intro v text htext hrefused
    exact hrefused.read_eq htext

/-- Steps and the height of the screen, each with an unknown field beside it. Then a height of too
    many bits, and a field that is written twice. -/
theorem read_by_field_partly :
    let text := "\x7b \"name\": [null], \"screen\": \x7b\"height\": 120, \"dpi\": null\x7d,\n" ++
      " \"steps_per_tick\": 10 \x7d"
    let tall := "\x7b\"screen\": \x7b\"height\": 65536\x7d\x7d"
    let twice := "\x7b\"adc_default\": 1, \"adc_default\": 1\x7d"
    read text = .ok { stepsPerTick := 10, screen := { height := 120 } } ∧
      read tall = .error .malformed ∧ read twice = .error .malformed := by
  intro text tall twice
  let s : Settings := { stepsPerTick := 10, screen := { height := 120 } }
  let inner : List (Literal × Json) := [(.ofText "height", .nat 120), (.ofText "dpi", .null)]
  let fields : List (Literal × Json) :=
    [(.ofText "name", .array [.null]), (.ofText "screen", .object inner),
      (.ofText "steps_per_tick", .nat 10)]
  let high : List (Literal × Json) := [(.ofText "height", .nat 65536)]
  let double : List (Literal × Json) :=
    [(.ofText "adc_default", .nat 1), (.ofText "adc_default", .nat 1)]
  obtain ⟨hshown, -, hrefused⟩ := read_by_field s
  refine ⟨?_, ?_, ?_⟩
  · have htext : (Json.object fields).Written text := Json.Token.row_of_scan? (by decide +kernel)
    have hinner : s.screen.ShownBy ["height"] inner := by
      refine ⟨?_, ?_⟩
      · simp [inner]
      · simp [inner, Geometry.fields, Json.Shows, Form.parts, s, Json.nat, Json.int?_int]
    refine hshown ["steps_per_tick", "screen"] ["height"] fields text htext ⟨?_, ?_, ?_, ?_⟩
    · simp [fields]
    · simp [fields, Json.Shows, Form.parts, s, Json.nat, Json.int?_int]
    · simp [fields, Json.Shows, Form.parts]
    · simp [fields, Json.Shows, Form.parts, hinner]
  · refine hrefused (.object [(.ofText "screen", .object high)]) tall
      (Json.Token.row_of_scan? (by decide +kernel)) ?_
    refine .screen rfl (.named List.mem_cons_self (Json.Literal.text?_ofText "screen")) ?_
    refine .outside rfl (.named List.mem_cons_self (Json.Literal.text?_ofText "height"))
      (by decide) ?_
    intro n hn
    have hlt := n.toNat_lt
    rw [Json.nat, Json.int?_int, Option.some.injEq] at hn
    omega
  · refine hrefused (.object double) twice (Json.Token.row_of_scan? (by decide +kernel)) ?_
    refine .muddled (.twice (by decide : "adc_default" ∈ names) ?_)
    simp [double, Form.parts]

end Settings

end Microboard
