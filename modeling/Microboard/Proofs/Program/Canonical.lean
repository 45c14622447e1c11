import Microboard.Proofs.Program.Restyling

/-!
# Writing what was read

A text can leave out empty bodies, but the text of its program has them all, and so can nest deeper
by a level. The limit is kept all the same: counted from the inside, statements are written up to
even levels and bodies up to odd ones, and the limit is odd. So the text of a program that was read
can be read again: `Program.canonical_stable`.
-/

namespace Microboard

namespace Json

/-! ### Bounds on the depth -/

theorem depthOfItems_le_iff {items : List Json} {n : Nat} :
    depthOfItems items ≤ n ↔ ∀ item ∈ items, item.depth ≤ n := by
  induction items with
  | nil => exact iff_of_true (Nat.zero_le n) (List.forall_mem_nil _)
  | cons item items ih => rw [depthOfItems, Nat.max_le, ih, List.forall_mem_cons]

theorem depthOfFields_le_iff {fields : List (Literal × Json)} {n : Nat} :
    depthOfFields fields ≤ n ↔ ∀ field ∈ fields, field.2.depth ≤ n := by
  induction fields with
  | nil => exact iff_of_true (Nat.zero_le n) (List.forall_mem_nil _)
  | cons field fields ih => rw [depthOfFields, Nat.max_le, ih, List.forall_mem_cons]

@[simp] theorem depth_text (s : String) : (text s).depth = 0 := rfl

@[simp] theorem depth_int64 (value : Int64) : (int64 value).depth = 0 := rfl

theorem depth_tagged_le (type : String) {fields : List (String × Json)} {n : Nat}
    (h : ∀ field ∈ fields, field.2.depth ≤ n) : (tagged type fields).depth ≤ n + 1 := by
  rw [tagged, record, depth, Nat.add_comm]
  apply Nat.succ_le_succ
  rw [depthOfFields_le_iff, List.forall_mem_map, List.forall_mem_cons]
  exact ⟨Nat.zero_le n, h⟩

/-! ### The parts of a form -/

namespace Form

variable {α : Type} {form rest : Form α} {part : α}

def values : Form α → List α
  | .positional given => given
  | .named fields => fields.map Prod.snd

theorem mem_of_mem_parts {name : String} {fields : List (Literal × α)}
    (h : part ∈ parts name fields) : part ∈ fields.map Prod.snd := by
  obtain ⟨field, hfield, rfl⟩ := List.mem_map.mp h
  exact List.mem_map_of_mem (List.mem_of_mem_filter hfield)

theorem mem_of_atMostOne? {found : List α} (h : atMostOne? found = some (some part)) :
    part ∈ found := by
  rcases found with _ | ⟨first, _ | ⟨second, found⟩⟩
  · cases h
  · cases h
    exact List.mem_singleton_self _
  · cases h

theorem exists_of_mem_mapM {β γ : Type} {l : List β} {f : β → Option γ} {found : List γ}
    (h : l.mapM f = some found) {c : γ} (hc : c ∈ found) : ∃ b ∈ l, f b = some c := by
  induction l generalizing found with
  | nil =>
    cases h
    cases hc
  | cons first l ih =>
    rw [List.mapM_cons] at h
    obtain ⟨value, hvalue, hrest⟩ := Option.bind_eq_some_iff.mp h
    obtain ⟨values, hvalues, hsame⟩ := Option.bind_eq_some_iff.mp hrest
    cases hsame
    rcases List.mem_cons.mp hc with rfl | hmem
    · exact ⟨first, List.mem_cons_self, hvalue⟩
    · obtain ⟨b, hb, hfound⟩ := ih hvalues hmem
      exact ⟨b, List.mem_cons_of_mem first hb, hfound⟩

theorem mem_of_arguments? {names : List String} {arguments : List (Option α)}
    (h : form.arguments? names = some arguments) (hmem : some part ∈ arguments) :
    part ∈ form.values := by
  cases form with
  | positional given =>
    rw [arguments?] at h
    split at h
    · cases h
      rcases List.mem_append.mp hmem with hgiven | hmissing
      · obtain ⟨_, hpart, hsame⟩ := List.mem_map.mp hgiven
        cases hsame
        exact hpart
      · cases (List.mem_replicate.mp hmissing).2
    · cases h
  | named fields =>
    rw [arguments?_named] at h
    split at h
    · obtain ⟨name, -, hname⟩ := exists_of_mem_mapM h hmem
      exact mem_of_mem_parts (mem_of_atMostOne? hname)
    · cases h

theorem mem_of_tagged? {text? : α → Option String} {tag : String}
    (h : form.tagged? text? = some (tag, rest)) (hmem : part ∈ rest.values) :
    part ∈ form.values := by
  cases form with
  | positional given =>
    cases given with
    | nil => cases h
    | cons first given =>
      obtain ⟨found, -, hfound⟩ := Option.bind_eq_some_iff.mp h
      cases hfound
      exact List.mem_cons_of_mem first hmem
  | named fields =>
    rw [tagged?_named] at h
    obtain ⟨found, -, hfound⟩ := Option.map_eq_some_iff.mp h
    cases hfound
    obtain ⟨field, hfield, rfl⟩ := List.mem_map.mp hmem
    exact List.mem_map_of_mem (List.mem_of_mem_filter hfield)

end Form

end Json

open Json (Form)

namespace Reading

variable {form : Form Reading} {tag : String}

theorem parts_of_bodyOf? {body : Option Reading} {b : List Statement} (h : bodyOf? body = some b) :
    b = [] ∨ ∃ part, body = some part ∧ part.body = some b := by
  cases body with
  | none =>
    cases h
    exact .inl rfl
  | some part => exact .inr ⟨part, rfl, h⟩

/-- The expressions and the body of a statement are those of the parts that it is read from, or the
    body is not written. -/
theorem parts_of_statementOf? {s : Statement} (h : statementOf? tag form = some s) :
    (∀ e ∈ s.expressions, ∃ part ∈ form.values, part.expression = some e) ∧
      (s.body = [] ∨ ∃ part ∈ form.values, part.body = some s.body) := by
  unfold statementOf? at h
  split at h
  case h_10 => cases h
  all_goals
    obtain ⟨arguments, harguments, h⟩ := Option.bind_eq_some_iff.mp h
    have hmem {part : Reading} (hpart : some part ∈ arguments) : part ∈ form.values :=
      Form.mem_of_arguments? harguments hpart
    split at h
    case' h_2 => cases h
    simp only [Option.bind_eq_bind, Option.bind_eq_some_iff, Option.pure_def, Option.some.injEq]
      at h
  · obtain ⟨_, -, _, -, rfl⟩ := h
    exact ⟨List.forall_mem_nil _, .inl rfl⟩
  · obtain ⟨_, -, _, -, _, -, e, ⟨_, rfl, he⟩, rfl⟩ := h
    exact ⟨List.forall_mem_singleton.mpr ⟨_, hmem (by simp), he⟩, .inl rfl⟩
  -- The conditional and the loop: the body is that of the last part, if there is one.
  · obtain ⟨_, -, _, -, _, -, _, -, b, hb, rfl⟩ := h
    refine ⟨List.forall_mem_nil _, (parts_of_bodyOf? hb).imp_right ?_⟩
    rintro ⟨part, rfl, hpart⟩
    exact ⟨part, hmem (by simp), hpart⟩
  · obtain ⟨b, hb, rfl⟩ := h
    refine ⟨List.forall_mem_nil _, (parts_of_bodyOf? hb).imp_right ?_⟩
    rintro ⟨part, rfl, hpart⟩
    exact ⟨part, hmem (by simp), hpart⟩
  · obtain ⟨x, ⟨_, rfl, hx⟩, y, ⟨_, rfl, hy⟩, rfl⟩ := h
    refine ⟨List.forall_mem_cons.mpr ⟨⟨_, hmem (by simp), hx⟩, ?_⟩, .inl rfl⟩
    exact List.forall_mem_singleton.mpr ⟨_, hmem (by simp), hy⟩
  · obtain ⟨_, -, rfl⟩ := h
    exact ⟨List.forall_mem_nil _, .inl rfl⟩
  · subst h
    exact ⟨List.forall_mem_nil _, .inl rfl⟩
  · obtain ⟨x, ⟨_, rfl, hx⟩, _, -, rfl⟩ := h
    exact ⟨List.forall_mem_singleton.mpr ⟨_, hmem (by simp), hx⟩, .inl rfl⟩
  · obtain ⟨_, -, rfl⟩ := h
    exact ⟨List.forall_mem_nil _, .inl rfl⟩

theorem part_of_expressionOf? {operand : Expression}
    (h : expressionOf? tag form = some (.negation operand)) :
    ∃ part ∈ form.values, part.expression = some operand := by
  unfold expressionOf? at h
  split at h
  case h_3 => cases h
  all_goals
    obtain ⟨arguments, harguments, h⟩ := Option.bind_eq_some_iff.mp h
    split at h
    case' h_2 => cases h
    simp only [Option.bind_eq_bind, Option.bind_eq_some_iff, Option.pure_def, Option.some.injEq]
      at h
  · obtain ⟨_, -, _, -, e, ⟨_, rfl, he⟩, hsame⟩ := h
    cases hsame
    exact ⟨_, Form.mem_of_arguments? harguments (by simp), he⟩
  · obtain ⟨_, -, _, -, _, -, _, -, hsame⟩ := h
    cases hsame

end Reading

/-! ### How deep programs are written -/

theorem Expression.depth_toJson_le {e : Expression} {n : Nat}
    (h : ∀ operand, e = .negation operand → operand.toJson.depth ≤ n) :
    e.toJson.depth ≤ n + 1 := by
  cases e with
  | name given => exact Nat.zero_le _
  | literal value => exact Nat.zero_le _
  | negation operand =>
    apply Json.depth_tagged_le
    simpa using h operand rfl
  | shifted base sign amount =>
    apply Json.depth_tagged_le
    simp

theorem Statement.depth_toJson_le {s : Statement} {n : Nat}
    (hexpressions : ∀ e ∈ s.expressions, e.toJson.depth ≤ n)
    (hbody : (Json.array (statementsToJson s.body)).depth ≤ n) : s.toJson.depth ≤ n + 1 := by
  cases s with
  | branch left comparison right inner =>
    apply Json.depth_tagged_le
    simpa [body] using hbody
  | loop inner =>
    apply Json.depth_tagged_le
    simpa [body] using hbody
  | _ =>
    apply Json.depth_tagged_le
    simp_all [expressions]

theorem depth_statementsToJson_le {body : List Statement} {n : Nat}
    (h : ∀ s ∈ body, s.toJson.depth ≤ n) :
    (Json.array (statementsToJson body)).depth ≤ n + 1 := by
  have hitems : Json.depthOfItems (statementsToJson body) ≤ n := by
    induction body with
    | nil => exact Nat.zero_le n
    | cons s rest ih =>
      obtain ⟨hs, hrest⟩ := List.forall_mem_cons.mp h
      exact Nat.max_le.mpr ⟨hs, ih hrest⟩
  rw [Json.depth, Nat.add_comm]
  exact Nat.succ_le_succ hitems

namespace Reading

/-- What a value of some depth can stand for is written not much deeper: statements up to the next
    even depth, bodies up to the next odd one. -/
structure Within (depth : Nat) (r : Reading) : Prop where
  expression : ∀ e, r.expression = some e → e.toJson.depth ≤ depth
  statement : ∀ s, r.statement = some s ∨ r.outermost = some s →
    s.toJson.depth ≤ depth + depth % 2
  body : ∀ b, r.body = some b ∨ r.program = some b →
    (Json.array (statementsToJson b)).depth ≤ depth + (depth + 1) % 2

theorem Within.mono {r : Reading} {m n : Nat} (h : r.Within m) (hle : m ≤ n) : r.Within n := by
  obtain ⟨hexpression, hstatement, hbody⟩ := h
  refine ⟨fun e he => ?_, fun s hs => ?_, fun b hb => ?_⟩
  · exact Nat.le_trans (hexpression e he) hle
  · have hs := hstatement s hs
    omega
  · have hb := hbody b hb
    omega

/-- What is no array and no object can stand for no statement and no body. -/
theorem within_leaf {text symbol : Option String} {literal : Option Int64}
    {expression : Option Expression} {n : Nat}
    (h : ∀ e, expression = some e → e.toJson.depth ≤ n) :
    Within n { text, symbol, literal, expression } := by
  refine ⟨h, ?_, ?_⟩
  · rintro s (hs | hs)
    · cases hs
    · cases hs
  · rintro b (hb | hb)
    · cases hb
    · cases hb

section

variable {form : Form Reading} {tag : String} {n : Nat} (h : ∀ part ∈ form.values, part.Within n)
include h

theorem depth_of_expressionOf? {e : Expression} (he : expressionOf? tag form = some e) :
    e.toJson.depth ≤ n + 1 := by
  apply Expression.depth_toJson_le
  rintro operand rfl
  obtain ⟨part, hpart, hread⟩ := part_of_expressionOf? he
  exact (h part hpart).expression operand hread

theorem depth_of_statementOf? {s : Statement} (hs : statementOf? tag form = some s) :
    s.toJson.depth ≤ n + 1 + (n + 1) % 2 := by
  obtain ⟨hexpressions, hbody⟩ := parts_of_statementOf? hs
  have hlevel : s.toJson.depth ≤ n + (n + 1) % 2 + 1 := by
    apply Statement.depth_toJson_le
    · intro e he
      obtain ⟨part, hpart, hread⟩ := hexpressions e he
      exact Nat.le_add_right_of_le ((h part hpart).expression e hread)
    · rcases hbody with hnone | ⟨part, hpart, hread⟩
      -- A body that is not written is written as an array without items.
      · rw [hnone, statementsToJson, Json.depth, Json.depthOfItems]
        omega
      · exact (h part hpart).body _ (.inl hread)
  omega

theorem within_ofForm : (ofForm form).Within (n + 1) := by
  have hrest {read : Reading → Option String} {tag : String} {rest : Form Reading}
      (htagged : form.tagged? read = some (tag, rest)) : ∀ part ∈ rest.values, part.Within n := by
    intro part hpart
    exact h part (Form.mem_of_tagged? htagged hpart)
  refine ⟨?_, ?_, ?_⟩
  · intro e he
    obtain ⟨⟨tag, rest⟩, htagged, he⟩ := Option.bind_eq_some_iff.mp he
    exact depth_of_expressionOf? (hrest htagged) he
  · rintro s (hs | hs)
    · obtain ⟨⟨tag, rest⟩, htagged, hs⟩ := Option.bind_eq_some_iff.mp hs
      exact depth_of_statementOf? (hrest htagged) hs
    · obtain ⟨⟨tag, rest⟩, htagged, hs⟩ := Option.bind_eq_some_iff.mp hs
      exact depth_of_statementOf? (hrest htagged) hs
  · rintro b (hb | hb)
    · cases hb
    · cases hb

end

/-- Expressions are written as deep as they stand. Of bodies and statements, each is written one
    level around the other, which is what keeps them apart as odd and even. -/
theorem within_ofJson (v : Json) : (ofJson v).Within v.depth := by
  induction v using Json.induct with
  | null =>
    apply within_leaf
    rintro e ⟨⟩
  | bool value =>
    apply within_leaf
    rintro e ⟨⟩
  | number n =>
    apply within_leaf
    intro e he
    obtain ⟨value, -, rfl⟩ := Option.map_eq_some_iff.mp he
    exact Nat.le_refl 0
  | string l =>
    apply within_leaf
    intro e he
    obtain ⟨name, -, rfl⟩ := Option.map_eq_some_iff.mp he
    exact Nat.le_refl 0
  | array items ih =>
    have hparts : ∀ part ∈ ofItems items, part.Within (Json.depthOfItems items) := by
      rw [ofItems_eq, List.forall_mem_map]
      intro item hitem
      exact (ih item hitem).mono (Json.depthOfItems_le_iff.mp (Nat.le_refl _) item hitem)
    have hform : (ofForm (.positional (ofItems items))).Within (Json.depthOfItems items + 1) :=
      within_ofForm hparts
    have hlevel {b : List Statement}
        (hb : ∀ s ∈ b, ∃ part ∈ ofItems items, part.statement = some s ∨ part.outermost = some s) :
        (Json.array (statementsToJson b)).depth ≤
          Json.depthOfItems items + Json.depthOfItems items % 2 + 1 := by
      apply depth_statementsToJson_le
      intro s hs
      obtain ⟨part, hpart, hread⟩ := hb s hs
      exact (hparts part hpart).statement s hread
    rw [Json.depth, Nat.add_comm, ofJson]
    refine ⟨hform.expression, hform.statement, ?_⟩
    rintro b (hb | hb)
    · have hstatements := hlevel fun s hs =>
        (Form.exists_of_mem_mapM hb hs).imp fun part h => h.imp_right .inl
      omega
    · have hstatements := hlevel fun s hs =>
        (Form.exists_of_mem_mapM hb hs).imp fun part h => h.imp_right .inr
      omega
  | object fields ih =>
    have hparts : ∀ part ∈ (Form.named (ofFields fields)).values,
        part.Within (Json.depthOfFields fields) := by
      rw [Form.values, ofFields_eq, List.map_map, List.forall_mem_map]
      intro field hfield
      exact (ih field hfield).mono (Json.depthOfFields_le_iff.mp (Nat.le_refl _) field hfield)
    obtain ⟨hexpression, hstatement, hbody⟩ := within_ofForm hparts
    rw [Json.depth, Nat.add_comm, ofJson]
    exact ⟨hexpression, hstatement, hbody⟩

end Reading

namespace Program

/-- The text of a program that was read nests no deeper than the limit, is read as that program
    again, and gives the same text once more. -/
theorem canonical_stable {text : String} {p : Program} (h : Program.read text = .ok p) :
    p.toJson.depth ≤ nestingLimit ∧ Program.read p.text = .ok p ∧
      (Program.read p.text).map Program.text = .ok p.text := by
  obtain ⟨v, -, hdepth, -, hprogram⟩ := read_eq_ok.mp h
  have hplain : p.toJson.Plain := .array (plain_statementsToJson p)
  have hlevel : p.toJson.depth ≤ v.depth + (v.depth + 1) % 2 :=
    (Reading.within_ofJson v).body p (.inr hprogram)
  have hlimit : p.toJson.depth ≤ nestingLimit := by
    rw [nestingLimit] at hdepth ⊢
    omega
  have hread : Program.read p.text = .ok p :=
    read_eq_ok.mpr
      ⟨p.toJson, hplain.read?_compact, hlimit, hplain.denotes, (Reading.body_toJson p).2⟩
  refine ⟨hlimit, hread, ?_⟩
  rw [hread]
  rfl

set_option maxRecDepth 3000 in
/-- Loops in one another, by position and all but the outermost by number, the innermost without a
    body: their text nests 126 levels deep, and the text of the program as many as there may be. -/
theorem canonical_stable_at_limit :
    let nested (n : Nat) : Json :=
      (fun loop => .array [.nat 3, .array [loop]])^[n] (.array [.nat 3])
    let value : Json := .array [.array [.text "While", .array [nested 61]]]
    let p : Program := (fun body => [.loop body])^[63] []
    value.depth = 126 ∧ Program.read value.compact = .ok p ∧ p.toJson.depth = 127 ∧
      Program.read p.text = .ok p := by
  intro nested value p
  have hkind : (Json.nat 3).Plain := .int (by decide)
  have hnested (n : Nat) : (nested n).Plain := by
    induction n with
    | zero => exact .array (List.forall_mem_singleton.mpr hkind)
    | succ n ih =>
      have hbody : (Json.array [nested n]).Plain := .array (List.forall_mem_singleton.mpr ih)
      have hloop : nested (n + 1) = .array [.nat 3, .array [nested n]] :=
        Function.iterate_succ_apply' _ _ _
      rw [hloop]
      exact .array (List.forall_mem_cons.mpr ⟨hkind, List.forall_mem_singleton.mpr hbody⟩)
  have hbody : (Json.array [nested 61]).Plain :=
    .array (List.forall_mem_singleton.mpr (hnested 61))
  have hplain : value.Plain := .array <| List.forall_mem_singleton.mpr <|
    .array (List.forall_mem_cons.mpr ⟨.text "While", List.forall_mem_singleton.mpr hbody⟩)
  have hdepth : value.depth = 126 := by decide +kernel
  have hprogram : (Reading.ofJson value).program = some p := by rfl
  have hread : Program.read value.compact = .ok p :=
    read_eq_ok.mpr ⟨_, hplain.read?_compact, by rw [hdepth]; decide, hplain.denotes, hprogram⟩
  obtain ⟨-, hagain, -⟩ := canonical_stable hread
  exact ⟨hdepth, hread, by decide +kernel, hagain⟩

end Program

end Microboard
