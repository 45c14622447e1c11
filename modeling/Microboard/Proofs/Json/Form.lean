import Mathlib.Data.List.Forall2
import Microboard.Json.Form

/-!
# Records by name

In a record whose fields have different names, each name finds the part that belongs to it, in
whatever order the fields are written: `arguments?_record`. A tag that is one of the fields is
split off: `tagged?_record`. A name or a place with a part is the argument of that name:
`Assigns.mem_zip`.
-/

namespace Microboard.Json.Form

variable {α : Type}

def spelled (fields : List (String × α)) : List (Literal × α) :=
  fields.map fun (name, part) => (.ofText name, part)

def record (fields : List (String × α)) : Form α :=
  .named (spelled fields)

/-! ### Finding parts -/

theorem parts_spelled_cons (name other : String) (part : α) (fields : List (String × α)) :
    parts name (spelled ((other, part) :: fields)) =
      if other = name then part :: parts name (spelled fields)
      else parts name (spelled fields) := by
  by_cases h : other = name
  · simp [parts, spelled, h]
  · simp [parts, spelled, h]

theorem parts_eq_nil {name : String} {fields : List (String × α)}
    (h : name ∉ fields.map Prod.fst) : parts name (spelled fields) = [] := by
  induction fields with
  | nil => rfl
  | cons field fields ih =>
    rw [List.map_cons, List.mem_cons, not_or] at h
    rw [parts_spelled_cons, if_neg (Ne.symm h.1), ih h.2]

theorem parts_eq_lookup (name : String) {fields : List (String × α)}
    (h : (fields.map Prod.fst).Nodup) :
    parts name (spelled fields) = (fields.lookup name).toList := by
  induction fields with
  | nil => rfl
  | cons field fields ih =>
    obtain ⟨other, part⟩ := field
    obtain ⟨hother, hrest⟩ := List.nodup_cons.mp h
    rw [parts_spelled_cons, List.lookup_cons]
    by_cases hname : other = name
    · subst hname
      rw [if_pos rfl, parts_eq_nil hother, beq_self_eq_true]
      rfl
    · rw [if_neg hname, ih hrest, beq_eq_false_iff_ne.mpr (Ne.symm hname)]

theorem parts_of_mem {name : String} {part : α} {fields : List (String × α)}
    (h : (fields.map Prod.fst).Nodup) (hmem : (name, part) ∈ fields) :
    parts name (spelled fields) = [part] := by
  induction fields with
  | nil => cases hmem
  | cons field fields ih =>
    obtain ⟨other, value⟩ := field
    obtain ⟨hother, hrest⟩ := List.nodup_cons.mp h
    rw [parts_spelled_cons]
    rcases List.mem_cons.mp hmem with heq | hmem
    · cases heq
      rw [if_pos rfl, parts_eq_nil hother]
    · have hne : other ≠ name := by
        rintro rfl
        have hagain := List.mem_map_of_mem (f := Prod.fst) hmem
        exact hother hagain
      rw [if_neg hne, ih hrest hmem]

theorem texts_spelled (fields : List (String × α)) :
    ∀ field ∈ spelled fields, field.1.text?.isSome = true := by
  intro field hfield
  obtain ⟨⟨name, part⟩, -, rfl⟩ := List.mem_map.mp hfield
  rw [Literal.text?_ofText]
  rfl

/-! ### Records -/

theorem arguments?_record {fields : List (String × α)} (h : (fields.map Prod.fst).Nodup)
    (names : List String) :
    (record fields).arguments? names = some (names.map fun name => fields.lookup name) := by
  have htexts : (spelled fields).all (·.1.text?.isSome) = true :=
    List.all_eq_true.mpr (texts_spelled fields)
  have hpure : names.mapM (fun name => (pure (fields.lookup name) : Option (Option α))) =
      some (names.map fun name => fields.lookup name) := List.mapM_pure
  rw [record, arguments?, if_pos htexts, ← hpure]
  congr 1
  funext name
  rw [parts_eq_lookup name h]
  cases fields.lookup name with
  | none => rfl
  | some part => rfl

theorem tagged?_record (text? : α → Option String) (tag : α) {fields : List (String × α)}
    (h : "type" ∉ fields.map Prod.fst) :
    (record (("type", tag) :: fields)).tagged? text? =
      (text? tag).map fun type => (type, record fields) := by
  have hrest : ((Literal.ofText "type", tag) :: spelled fields).filter
      (fun field => field.1.text? ≠ some "type") = spelled fields := by
    rw [List.filter_cons_of_neg (by simp), List.filter_eq_self]
    intro field hfield
    obtain ⟨⟨name, part⟩, hmem, rfl⟩ := List.mem_map.mp hfield
    have hname : name ≠ "type" := by
      rintro rfl
      exact h (List.mem_map_of_mem hmem)
    simpa using hname
  have hcons : spelled (("type", tag) :: fields) =
    (Literal.ofText "type", tag) :: spelled fields := rfl
  simp only [record, tagged?, parts_spelled_cons, if_true, parts_eq_nil h]
  rw [hcons, hrest]
  cases text? tag with
  | none => rfl
  | some type => rfl

/-! ### One part at most -/

/-- The part of a name, which may be absent but must not be there twice. -/
def atMostOne? : List α → Option (Option α)
  | [] => some none
  | [part] => some (some part)
  | _ => none

/-- The part of a name that must be there. -/
def exactlyOne? : List α → Option α
  | [part] => some part
  | _ => none

theorem arguments?_named (names : List String) (fields : List (Literal × α)) :
    (Form.named fields).arguments? names =
      if fields.all (·.1.text?.isSome) then names.mapM fun name => atMostOne? (parts name fields)
      else none := rfl

def untagged (fields : List (Literal × α)) : List (Literal × α) :=
  fields.filter fun field => field.1.text? ≠ some "type"

theorem untagged_append (before behind : List (Literal × α)) :
    untagged (before ++ behind) = untagged before ++ untagged behind :=
  List.filter_append _ _

theorem untagged_cons_of_ne {name : Literal} (h : name.text? ≠ some "type") (part : α)
    (fields : List (Literal × α)) :
    untagged ((name, part) :: fields) = (name, part) :: untagged fields :=
  List.filter_cons_of_pos (by simpa using h)

theorem tagged?_named (text? : α → Option String) (fields : List (Literal × α)) :
    (Form.named fields).tagged? text? =
      ((exactlyOne? (parts "type" fields)).bind text?).map
        fun type => (type, .named (untagged fields)) := by
  rw [tagged?]
  rcases parts "type" fields with _ | ⟨tag, _ | ⟨other, tags⟩⟩
  · rfl
  · simp only [exactlyOne?, Option.bind_some]
    cases text? tag with
    | none => rfl
    | some type => rfl
  · rfl

/-! ### Fields in another order -/

theorem parts_perm {fields others : List (Literal × α)} (h : fields.Perm others) (name : String) :
    (parts name fields).Perm (parts name others) :=
  (h.filter _).map _

theorem atMostOne?_perm {l m : List α} (h : l.Perm m) : atMostOne? l = atMostOne? m := by
  have hlength := h.length_eq
  rcases l with _ | ⟨a, _ | ⟨b, l⟩⟩
  · rw [List.nil_perm.mp h]
  · rw [List.singleton_perm.mp h]
  · rcases m with _ | ⟨c, _ | ⟨d, m⟩⟩
    · cases hlength
    · cases hlength
    · rfl

theorem exactlyOne?_eq (l : List α) : exactlyOne? l = (atMostOne? l).join := by
  rcases l with _ | ⟨a, _ | ⟨b, l⟩⟩
  · rfl
  · rfl
  · rfl

theorem arguments?_perm {fields others : List (Literal × α)} (h : fields.Perm others)
    (names : List String) :
    (Form.named fields).arguments? names = (Form.named others).arguments? names := by
  have hparts : (fun name => atMostOne? (parts name fields)) =
      fun name => atMostOne? (parts name others) :=
    funext fun name => atMostOne?_perm (parts_perm h name)
  rw [arguments?_named, arguments?_named, h.all_eq, hparts]

/-! ### Fields with another name -/

theorem parts_append (name : String) (before behind : List (Literal × α)) :
    parts name (before ++ behind) = parts name before ++ parts name behind := by
  rw [parts, List.filter_append, List.map_append]
  rfl

theorem parts_cons_of_ne {name : Literal} {other : String} (h : name.text? ≠ some other) (part : α)
    (fields : List (Literal × α)) : parts other ((name, part) :: fields) = parts other fields := by
  rw [parts, List.filter_cons_of_neg (by simpa using h)]
  rfl

theorem parts_cons_of_eq {name : Literal} {other : String} (h : name.text? = some other) (part : α)
    (fields : List (Literal × α)) :
    parts other ((name, part) :: fields) = part :: parts other fields := by
  rw [parts, List.filter_cons_of_pos (by simpa using h)]
  rfl

theorem mapM_congr {β : Type} {names : List String} {f g : String → Option β}
    (h : ∀ name ∈ names, f name = g name) : names.mapM f = names.mapM g := by
  induction names with
  | nil => rfl
  | cons name names ih =>
    obtain ⟨hname, hrest⟩ := List.forall_mem_cons.mp h
    rw [List.mapM_cons, List.mapM_cons, hname, ih hrest]

theorem mapM_cons_of_notMem {name : Literal} {text : String} (htext : name.text? = some text)
    {names : List String} (h : text ∉ names) (part : α) (fields : List (Literal × α)) :
    names.mapM (fun other => atMostOne? (parts other ((name, part) :: fields))) =
      names.mapM fun other => atMostOne? (parts other fields) := by
  apply mapM_congr
  intro other hother
  have hne : name.text? ≠ some other := by
    rw [htext, ne_eq, Option.some.injEq]
    rintro rfl
    exact h hother
  rw [parts_cons_of_ne hne]

theorem arguments?_cons_of_notMem {name : Literal} {text : String} (htext : name.text? = some text)
    {names : List String} (h : text ∉ names) (part : α) (fields : List (Literal × α)) :
    (Form.named ((name, part) :: fields)).arguments? names =
      (Form.named fields).arguments? names := by
  rw [arguments?_named, arguments?_named, mapM_cons_of_notMem htext h, List.all_cons, htext,
    Option.isSome_some, Bool.true_and]

/-! ### The last field left out -/

/-- Whether the last of the fields is written or not makes a difference for the last argument
    only. -/
theorem arguments?_last {name : Literal} {last : String} (hname : name.text? = some last)
    {names : List String} (hlast : last ∉ names) (part : α) {fields : List (Literal × α)}
    (habsent : parts last fields = []) :
    ∃ given : Option (List (Option α)),
      (Form.named fields).arguments? (names ++ [last]) = given.map (· ++ [none]) ∧
      (Form.named ((name, part) :: fields)).arguments? (names ++ [last]) =
        given.map (· ++ [some part]) := by
  have hparts := mapM_cons_of_notMem hname hlast part fields
  have hpresent : parts last ((name, part) :: fields) = [part] := by
    rw [parts_cons_of_eq hname, habsent]
  rw [arguments?_named, arguments?_named, List.all_cons, hname, Option.isSome_some, Bool.true_and]
  split
  · refine ⟨names.mapM fun other => atMostOne? (parts other fields), ?_, ?_⟩
    · rw [List.mapM_append, List.mapM_cons, habsent]
      cases names.mapM fun other => atMostOne? (parts other fields) with
      | none => rfl
      | some given => rfl
    · rw [List.mapM_append, List.mapM_cons, hpresent, hparts]
      cases names.mapM fun other => atMostOne? (parts other fields) with
      | none => rfl
      | some given => rfl
  · exact ⟨none, rfl, rfl⟩

/-! ### Another part in a field -/

theorem atMostOne?_middle (before behind : List α) (part other : α) :
    atMostOne? (before ++ other :: behind) =
      (atMostOne? (before ++ part :: behind)).map fun _ => some other := by
  rcases before with _ | ⟨first, _ | ⟨second, before⟩⟩
  · rcases behind with _ | ⟨last, behind⟩
    · rfl
    · rfl
  · rfl
  · rfl

theorem mapM_set {β : Type} {names : List String} (hnames : names.Nodup) {name : String}
    (hname : name ∈ names) {f g : String → Option β} {b : β}
    (hother : ∀ other ∈ names, other ≠ name → g other = f other)
    (hsame : g name = (f name).map fun _ => b) :
    names.mapM g = (names.mapM f).map (·.set (names.idxOf name) b) := by
  induction names with
  | nil => cases hname
  | cons first names ih =>
    obtain ⟨hfirst, hrest⟩ := List.nodup_cons.mp hnames
    obtain ⟨hhead, htail⟩ := List.forall_mem_cons.mp hother
    rw [List.mapM_cons, List.mapM_cons]
    by_cases hne : first = name
    · subst hne
      have hmapM : names.mapM g = names.mapM f := by
        apply mapM_congr
        intro other hmem
        apply htail other hmem
        rintro rfl
        exact hfirst hmem
      rw [hsame, hmapM, List.idxOf_cons_self]
      cases f first with
      | none => rfl
      | some value =>
        cases names.mapM f with
        | none => rfl
        | some values => rfl
    · have hmem : name ∈ names := (List.mem_cons.mp hname).resolve_left (Ne.symm hne)
      rw [hhead hne, ih hrest hmem htail, List.idxOf_cons_ne _ hne]
      cases f first with
      | none => rfl
      | some value =>
        cases names.mapM f with
        | none => rfl
        | some values => rfl

/-- Another part in a field is another argument in the place of the field. -/
theorem arguments?_set {name : Literal} {text : String} (hname : name.text? = some text)
    {names : List String} (hnames : names.Nodup) (hmem : text ∈ names)
    (before behind : List (Literal × α)) (part other : α) :
    (Form.named (before ++ (name, other) :: behind)).arguments? names =
      ((Form.named (before ++ (name, part) :: behind)).arguments? names).map
        (·.set (names.idxOf text) (some other)) := by
  rw [arguments?_named, arguments?_named, List.all_append, List.all_append, List.all_cons,
    List.all_cons]
  split
  · apply mapM_set hnames hmem
    · intro found _ hne
      have hother : name.text? ≠ some found := by
        rw [hname, ne_eq, Option.some.injEq]
        exact Ne.symm hne
      rw [parts_append, parts_append, parts_cons_of_ne hother, parts_cons_of_ne hother]
    · rw [parts_append, parts_append, parts_cons_of_eq hname, parts_cons_of_eq hname]
      exact atMostOne?_middle _ _ part other
  · rfl

/-! ### By name and by position -/

theorem map_lookup_zip {names : List String} (hnames : names.Nodup) {given : List α}
    (h : given.length ≤ names.length) :
    names.map (fun name => (names.zip given).lookup name) =
      given.map some ++ List.replicate (names.length - given.length) none := by
  induction names generalizing given with
  | nil =>
    rw [List.length_eq_zero_iff.mp (Nat.le_zero.mp h)]
    rfl
  | cons name names ih =>
    cases given with
    | nil =>
      rw [List.zip_nil_right]
      exact List.map_const'
    | cons part given =>
      obtain ⟨hname, hrest⟩ := List.nodup_cons.mp hnames
      have hskip : names.map (fun other => ((name, part) :: names.zip given).lookup other) =
          names.map fun other => (names.zip given).lookup other := by
        apply List.map_congr_left
        intro other hother
        have hne : (other == name) = false := by
          rw [beq_eq_false_iff_ne]
          rintro rfl
          exact hname hother
        rw [List.lookup_cons, hne]
      rw [List.zip_cons_cons, List.map_cons, List.lookup_cons_self, hskip,
        ih hrest (Nat.le_of_succ_le_succ h), List.map_cons, List.cons_append, List.length_cons,
        List.length_cons, Nat.add_sub_add_right]

/-- Fields by position are the fields by name, the last ones left out. -/
theorem arguments?_zip {names : List String} (hnames : names.Nodup) {given : List α}
    (h : given.length ≤ names.length) :
    (record (names.zip given)).arguments? names = (Form.positional given).arguments? names := by
  have hfields : ((names.zip given).map Prod.fst).Nodup := by
    rw [List.zip_eq_zip_take_min, List.map_fst_zip (by simp)]
    exact hnames.sublist (List.take_sublist _ _)
  rw [arguments?_record hfields, map_lookup_zip hnames h, arguments?, if_pos h]

/-! ### The arguments one by one -/

theorem atMostOne?_eq_some_iff {l : List α} {arg : Option α} :
    atMostOne? l = some arg ↔ l = arg.toList := by
  rcases l with _ | ⟨a, _ | ⟨b, l⟩⟩
  · cases arg <;> simp [atMostOne?]
  · cases arg <;> simp [atMostOne?]
  · cases arg <;> simp [atMostOne?]

/-- The arguments are found if each of them is. -/
theorem mapM_eq_some_iff {β : Type} {names : List String} {f : String → Option β}
    {found : List β} :
    names.mapM f = some found ↔ List.Forall₂ (fun name b => f name = some b) names found := by
  induction names generalizing found with
  | nil =>
    rw [List.mapM_nil, List.forall₂_nil_left_iff]
    exact ⟨fun h => (Option.some.inj h).symm, fun h => congrArg some h.symm⟩
  | cons name names ih =>
    rw [List.mapM_cons, List.forall₂_cons_left_iff]
    constructor
    · intro h
      obtain ⟨b, hb, hrest⟩ := Option.bind_eq_some_iff.mp h
      obtain ⟨bs, hbs, hfound⟩ := Option.bind_eq_some_iff.mp hrest
      exact ⟨b, bs, hb, ih.mp hbs, (Option.some.inj hfound).symm⟩
    · rintro ⟨b, bs, hb, hbs, rfl⟩
      rw [hb, ih.mpr hbs]
      rfl

/-- By name, each argument is what the fields of its name are, and these are not several. -/
theorem arguments?_named_eq_some_iff {names : List String} {fields : List (Literal × α)}
    {args : List (Option α)} :
    (Form.named fields).arguments? names = some args ↔
      (∀ field ∈ fields, field.1.text?.isSome = true) ∧
        List.Forall₂ (fun name arg => parts name fields = arg.toList) names args := by
  rw [arguments?_named, ← List.all_eq_true]
  split
  · next htexts =>
    rw [mapM_eq_some_iff, and_iff_right htexts]
    simp only [atMostOne?_eq_some_iff]
  · next htexts =>
    refine iff_of_false (by simp) ?_
    rintro ⟨hall, -⟩
    exact htexts hall

/-- Each name has an argument, which is what the fields of that name are. -/
theorem exists_mem_zip {names : List String} {fields : List (Literal × α)}
    {args : List (Option α)} (hargs : (Form.named fields).arguments? names = some args)
    {name : String} (hname : name ∈ names) :
    ∃ arg, (name, arg) ∈ names.zip args ∧ parts name fields = arg.toList := by
  obtain ⟨-, hall⟩ := arguments?_named_eq_some_iff.mp hargs
  obtain ⟨hlength, hzip⟩ := List.forall₂_iff_zip.mp hall
  rw [← List.map_fst_zip (Nat.le_of_eq hlength)] at hname
  obtain ⟨⟨_, arg⟩, harg, rfl⟩ := List.mem_map.mp hname
  exact ⟨arg, harg, hzip harg⟩

/-- A record with these names gives a part to a field: under its name, or in its place. -/
inductive Assigns (names : List String) : Form α → String → α → Prop
  | named {fields : List (Literal × α)} {l : Literal} {name : String} {part : α}
      (hmem : (l, part) ∈ fields) (hname : l.text? = some name) :
      Assigns names (.named fields) name part
  | positional {given : List α} {i : Nat} {name : String} {part : α}
      (hname : names[i]? = some name) (hpart : given[i]? = some part) :
      Assigns names (.positional given) name part

/-- What is given to a field is the argument of the field. -/
theorem Assigns.mem_zip {names : List String} {form : Form α} {name : String} {part : α}
    (h : form.Assigns names name part) (hname : name ∈ names) {args : List (Option α)}
    (hargs : form.arguments? names = some args) : (name, some part) ∈ names.zip args := by
  cases h with
  | @named fields l _ _ hmem htext =>
    have hpart : part ∈ parts name fields :=
      List.mem_map.mpr ⟨(l, part), List.mem_filter.mpr ⟨hmem, by simpa using htext⟩, rfl⟩
    obtain ⟨arg, harg, hparts⟩ := exists_mem_zip hargs hname
    rw [hparts, Option.mem_toList] at hpart
    rwa [← hpart]
  | @positional given i _ _ hi hpart =>
    rw [arguments?] at hargs
    split at hargs
    · cases hargs
      have hlt : i < (given.map some).length := by
        rw [List.length_map]
        exact (List.getElem?_eq_some_iff.mp hpart).1
      refine List.mem_of_getElem? (i := i) (List.getElem?_zip_eq_some.mpr ⟨hi, ?_⟩)
      rw [List.getElem?_append_left hlt, List.getElem?_map, hpart]
      rfl
    · cases hargs

end Microboard.Json.Form
