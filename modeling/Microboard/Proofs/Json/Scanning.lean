import Mathlib.Data.List.Chain
import Microboard.Proofs.Json.Number
import Microboard.Proofs.Json.Spelling

/-!
# Scanning tokens in a row

Tokens are written one behind the other with blanks at will. Punctuation and string literals show
where they end, but a word only ends where another token begins. Tokens in a row are therefore found
again as long as no two words meet: `Row.scan?`. Conversely the tokens that are found in a text
stand in it in a row: `row_of_scan?`.
-/

namespace Microboard.Json.Token

/-- The tokens that do not show where they end. -/
def isWord : Token → Bool
  | .null | .bool _ | .number _ => true
  | _ => false

/-- Not both are words. -/
def Apart (t u : Token) : Prop :=
  t.isWord = true → u.isWord = false

/-- How a token is written when its literal is known by its code points. -/
def Stands : Token → List Char → Prop
  | .number n, cs => Number.ofChars? cs = some n
  | .string l, cs => ∃ body, Literal.Spells l.points body ∧ cs = '"' :: body ++ ['"']
  | t, cs => cs = t.lexeme

/-- Tokens in a row with blanks anywhere between them. -/
inductive Row (R : Token → List Char → Prop) : List Token → List Char → Prop
  | done : Row R [] []
  | blank {c : Char} {ts : List Token} {cs : List Char} (hc : isBlank c = true) (h : Row R ts cs) :
      Row R ts (c :: cs)
  | token {t : Token} {ds cs : List Char} {ts : List Token} (ht : R t ds) (h : Row R ts cs) :
      Row R (t :: ts) (ds ++ cs)

namespace Row

variable {R : Token → List Char → Prop} {ts us : List Token} {cs ds : List Char}

theorem append (h : Row R ts cs) (hmore : Row R us ds) : Row R (ts ++ us) (cs ++ ds) := by
  induction h with
  | done => exact hmore
  | blank hc _ ih => exact .blank hc ih
  | @token t es cs ts ht _ ih =>
    rw [List.append_assoc]
    exact .token ht ih

theorem concat {t : Token} (h : Row R ts cs) (ht : R t ds) : Row R (ts ++ [t]) (cs ++ ds) := by
  have hlast : Row R [t] (ds ++ []) := .token ht .done
  rw [List.append_nil] at hlast
  exact h.append hlast

theorem concat_blank {c : Char} (h : Row R ts cs) (hc : isBlank c = true) :
    Row R ts (cs ++ [c]) := by
  have hlast := h.append (.blank hc .done)
  rwa [List.append_nil] at hlast

end Row

namespace Scanner

/-- If the text ended here, or a mark or a literal began, these tokens would be found. -/
structure Ends (s : Scanner) (found : List Token) : Prop where
  ended_eq : ∃ read, s.place = .word read ∧ ended s.found read = some found

theorem ends_fresh (found : List Token) : (Scanner.mk found (.word [])).Ends found :=
  ⟨[], rfl, rfl⟩

namespace Ends

variable {s : Scanner} {found : List Token}

theorem finish_eq (h : s.Ends found) : s.finish = some found.reverse := by
  obtain ⟨read, hplace, hended⟩ := h.ended_eq
  simp only [finish, hplace, hended, Option.map_some]

theorem eq_fresh (h : s.Ends found) (hplace : s.place = .word []) : s = ⟨found, .word []⟩ := by
  obtain ⟨read, hread, hended⟩ := h.ended_eq
  rw [hplace] at hread
  cases hread
  cases s
  cases hplace
  cases hended
  rfl

theorem take_mark (h : s.Ends found) {c : Char} {mark : Token} (hmark : ofMark? c = some mark) :
    s.take c = some ⟨mark :: found, .word []⟩ := by
  obtain ⟨read, hplace, hended⟩ := h.ended_eq
  have hquote : c ≠ '"' := by
    rintro rfl
    cases hmark
  have hblank : ¬ isBlank c = true := by
    intro hc
    simp only [isBlank, Bool.or_eq_true, decide_eq_true_eq] at hc
    rcases hc with ((rfl | rfl) | rfl) | rfl <;> cases hmark
  simp only [take, hplace, if_neg hblank, if_neg hquote, hmark, hended, Option.map_some]

theorem take_quote (h : s.Ends found) : s.take '"' = some ⟨found, .literal []⟩ := by
  obtain ⟨read, hplace, hended⟩ := h.ended_eq
  have hblank : isBlank '"' = false := by decide
  simp only [take, hplace, hblank, hended, Bool.false_eq_true, if_false, if_true, Option.map_some]

theorem take_blank (h : s.Ends found) {c : Char} (hc : isBlank c = true) :
    s.take c = some ⟨found, .word []⟩ := by
  obtain ⟨read, hplace, hended⟩ := h.ended_eq
  simp only [take, hplace, hc, hended, if_true, Option.map_some]

end Ends

/-! ### Words -/

/-- The characters that a word can consist of. -/
def isInner (c : Char) : Bool :=
  !isBlank c && c ≠ '"' && (ofMark? c).isNone

theorem isInner_of_isDigit {c : Char} (h : c.isDigit = true) : isInner c = true := by
  have hne : ∀ d : Char, d.isDigit = false → c ≠ d := by
    rintro d hd rfl
    rw [h] at hd
    cases hd
  have hmark : ofMark? c = none := by
    unfold ofMark?
    split
    case h_7 => rfl
    all_goals exact absurd rfl (hne _ rfl)
  simp [isInner, isBlank, hne ' ' rfl, hne '\t' rfl, hne '\n' rfl, hne '\r' rfl, hne '"' rfl, hmark]

theorem isInner_of_numeric {c : Char} (h : Number.Numeric c) : isInner c = true := by
  rcases h with hdigit | hmem
  · exact isInner_of_isDigit hdigit
  · simp only [List.mem_cons, List.not_mem_nil, or_false] at hmem
    rcases hmem with rfl | rfl | rfl | rfl | rfl <;> rfl

theorem foldlM_word {word : List Char} (h : ∀ c ∈ word, isInner c = true)
    (found : List Token) (read : List Char) :
    word.foldlM take ⟨found, .word read⟩ = some ⟨found, .word (word.reverse ++ read)⟩ := by
  induction word generalizing read with
  | nil => rfl
  | cons c word ih =>
    have hinner := h c List.mem_cons_self
    simp only [isInner, Bool.and_eq_true, Bool.not_eq_true', decide_eq_true_eq,
      Option.isNone_iff_eq_none] at hinner
    obtain ⟨⟨hblank, hquote⟩, hmark⟩ := hinner
    have hrest := ih (fun d hd => h d (List.mem_cons_of_mem c hd)) (c :: read)
    rw [List.foldlM_cons]
    simp only [take, hblank, hmark, Bool.false_eq_true, if_false, if_neg hquote,
      Option.bind_eq_bind, Option.bind_some, hrest, List.reverse_cons, List.append_assoc,
      List.singleton_append]

end Scanner

/-! ### What is written is found -/

/-- A word is a run of characters that no other token has. -/
theorem Stands.word {t : Token} {cs : List Char} (h : t.Stands cs) (hword : t.isWord = true) :
    (∀ c ∈ cs, Scanner.isInner c = true) ∧ cs ≠ [] ∧ ofWord? cs = some t := by
  cases t with
  | null =>
    cases h
    exact ⟨List.all_eq_true.mp rfl, List.cons_ne_nil _ _, rfl⟩
  | bool value =>
    cases h
    cases value with
    | false => exact ⟨List.all_eq_true.mp rfl, List.cons_ne_nil _ _, rfl⟩
    | true => exact ⟨List.all_eq_true.mp rfl, List.cons_ne_nil _ _, rfl⟩
  | number n =>
    obtain ⟨hne, hnumeric⟩ := Number.numeric_of_ofChars? h
    refine ⟨fun c hc => Scanner.isInner_of_numeric (hnumeric c hc), hne, ?_⟩
    have hother : ∀ word : List Char, Number.ofChars? word = none → cs ≠ word := by
      rintro word hnone rfl
      rw [h] at hnone
      cases hnone
    have hread : Number.ofChars? cs = some n := h
    unfold ofWord?
    rw [if_neg (hother _ rfl), if_neg (hother _ rfl), if_neg (hother _ rfl), hread]
    rfl
  | _ => cases hword

namespace Scanner

/-- Scanning one more token, if it is no word or follows no word. -/
theorem Ends.foldlM_stands {s : Scanner} {found : List Token} (h : s.Ends found) {t : Token}
    {cs : List Char} (ht : t.Stands cs) (hword : t.isWord = true → s.place = .word []) :
    ∃ next, cs.foldlM take s = some next ∧ next.Ends (t :: found) ∧
      (t.isWord = false → next.place = .word []) := by
  have hmark : ∀ c, cs = [c] → ofMark? c = some t →
      ∃ next, cs.foldlM take s = some next ∧ next.Ends (t :: found) ∧
        (t.isWord = false → next.place = .word []) := by
    intro c hcs hc
    refine ⟨⟨t :: found, .word []⟩, ?_, ends_fresh _, fun _ => rfl⟩
    rw [hcs, List.foldlM_cons, h.take_mark hc]
    rfl
  rcases hisWord : t.isWord with _ | _
  · cases t with
    | openArray => exact hmark '[' ht rfl
    | closeArray => exact hmark ']' ht rfl
    | openObject => exact hmark '\x7b' ht rfl
    | closeObject => exact hmark '\x7d' ht rfl
    | colon => exact hmark ':' ht rfl
    | comma => exact hmark ',' ht rfl
    | string l =>
      obtain ⟨body, hbody, rfl⟩ := ht
      refine ⟨_, ?_, ends_fresh _, fun _ => rfl⟩
      rw [List.cons_append, List.foldlM_cons, h.take_quote]
      simp [hbody.foldlM_take, take]
    | _ => cases hisWord
  · obtain ⟨hinner, hne, hofWord⟩ := ht.word hisWord
    have hfresh := h.eq_fresh (hword hisWord)
    refine ⟨⟨found, .word cs.reverse⟩, ?_, ⟨cs.reverse, rfl, ?_⟩, ?_⟩
    · rw [hfresh, foldlM_word hinner, List.append_nil]
    · simp [ended, hne, hofWord]
    · intro hnot
      cases hnot

theorem Ends.foldlM_row {ts : List Token} {cs : List Char} (hrow : Row Stands ts cs)
    (hapart : ts.IsChain Apart) {s : Scanner} {found : List Token} (h : s.Ends found)
    (hhead : ∀ t ∈ ts.head?, t.isWord = true → s.place = .word []) :
    ∃ last, cs.foldlM take s = some last ∧ last.Ends (ts.reverse ++ found) := by
  -- The induction carries that a word is only begun where no other word is being read.
  induction hrow generalizing s found with
  | done => exact ⟨s, rfl, h⟩
  | blank hc _ ih =>
    obtain ⟨last, hlast, hends⟩ := ih hapart (ends_fresh found) fun _ _ _ => rfl
    refine ⟨last, ?_, hends⟩
    rw [List.foldlM_cons, h.take_blank hc]
    exact hlast
  | @token t ds cs ts ht _ ih =>
    obtain ⟨next, hnext, hends, hfresh⟩ := h.foldlM_stands ht (hhead t rfl)
    obtain ⟨hbehind, hrest⟩ := List.isChain_cons.mp hapart
    have hready : ∀ u ∈ ts.head?, u.isWord = true → next.place = .word [] := by
      intro u hu huword
      apply hfresh
      rcases htword : t.isWord with _ | _
      · rfl
      · have hnot := hbehind u hu htword
        rw [huword] at hnot
        cases hnot
    obtain ⟨last, hlast, hfinal⟩ := ih hrest hends hready
    refine ⟨last, ?_, ?_⟩
    · rw [List.foldlM_append, hnext]
      exact hlast
    · rw [List.reverse_cons, List.append_assoc, List.singleton_append]
      exact hfinal

end Scanner

/-- Tokens in a row are found if no two words meet. -/
theorem Row.scan? {ts : List Token} {cs : List Char} (h : Row Stands ts cs)
    (hapart : ts.IsChain Apart) : Token.scan? cs = some ts := by
  obtain ⟨last, hlast, hends⟩ := (Scanner.ends_fresh []).foldlM_row h hapart fun _ _ _ => rfl
  rw [List.append_nil] at hends
  simp only [Token.scan?, hlast, Option.bind_eq_bind, Option.bind_some, hends.finish_eq,
    List.reverse_reverse]

/-! ### What is found is written -/

theorem stands_of_ofMark? {c : Char} {t : Token} (h : ofMark? c = some t) : t.Stands [c] := by
  unfold ofMark? at h
  split at h
  case h_7 => cases h
  all_goals
    cases h
    rfl

theorem stands_of_ofWord? {word : List Char} {t : Token} (h : ofWord? word = some t) :
    t.Stands word := by
  unfold ofWord? at h
  split at h
  · rename_i hword
    cases h
    exact hword
  · split at h
    · rename_i hword
      cases h
      exact hword
    · split at h
      · rename_i hword
        cases h
        exact hword
      · obtain ⟨n, hn, rfl⟩ := Option.map_eq_some_iff.mp h
        exact hn

namespace Scanner

/-- What a scanner has taken: a row of the tokens that it has found, and behind it the beginning of
    the token that it is in. -/
inductive Reached : Scanner → List Char → Prop
  | word {found : List Token} {read done : List Char} (h : Row Stands found.reverse done) :
      Reached ⟨found, .word read⟩ (done ++ read.reverse)
  | literal {found : List Token} {ps : List Nat} {done body : List Char}
      (h : Row Stands found.reverse done) (hbody : Literal.Spells ps.reverse body) :
      Reached ⟨found, .literal ps⟩ (done ++ '"' :: body)
  | escape {found : List Token} {ps : List Nat} {done body : List Char}
      (h : Row Stands found.reverse done) (hbody : Literal.Spells ps.reverse body) :
      Reached ⟨found, .escape ps⟩ (done ++ '"' :: body ++ ['\\'])
  | code {found : List Token} {ps : List Nat} {done body digits : List Char} {value missing : Nat}
      (h : Row Stands found.reverse done) (hbody : Literal.Spells ps.reverse body)
      (hdigits : digits.foldlM (fun value c => (hexValue? c).map (16 * value + ·)) 0 = some value)
      (hlength : digits.length + missing = 4) (hmissing : 0 < missing) :
      Reached ⟨found, .code ps value missing⟩ (done ++ '"' :: body ++ '\\' :: 'u' :: digits)

theorem row_of_ended {found next : List Token} {read done : List Char}
    (h : Row Stands found.reverse done) (hended : ended found read = some next) :
    Row Stands next.reverse (done ++ read.reverse) := by
  unfold ended at hended
  split at hended
  · rename_i hempty
    cases hended
    rwa [List.isEmpty_iff.mp hempty, List.reverse_nil, List.append_nil]
  · obtain ⟨t, ht, rfl⟩ := Option.map_eq_some_iff.mp hended
    rw [List.reverse_cons]
    exact h.concat (stands_of_ofWord? ht)

theorem codeValue?_of_foldlM {digits : List Char} {value : Nat}
    (h : digits.foldlM (fun value c => (hexValue? c).map (16 * value + ·)) 0 = some value)
    (hlength : digits.length = 4) : Literal.codeValue? digits = some value := by
  obtain ⟨a, b, c, d, rfl⟩ := List.length_eq_four.mp hlength
  simp only [List.foldlM_cons, List.foldlM_nil, Option.bind_eq_bind, Option.bind_eq_some_iff,
    Option.map_eq_some_iff, Option.pure_def, Option.some.injEq] at h
  obtain ⟨_, ⟨w, hw, rfl⟩, _, ⟨x, hx, rfl⟩, _, ⟨y, hy, rfl⟩, _, ⟨z, hz, rfl⟩, rfl⟩ := h
  simp only [Literal.codeValue?, hw, hx, hy, hz, Option.bind_eq_bind, Option.bind_some,
    Option.pure_def, Option.some.injEq]
  omega

namespace Reached

theorem fresh {found : List Token} {done : List Char} (h : Row Stands found.reverse done) :
    Reached ⟨found, .word []⟩ done := by
  have hword : Reached ⟨found, .word []⟩ (done ++ [].reverse) := .word h
  rwa [List.reverse_nil, List.append_nil] at hword

theorem take {s next : Scanner} {done : List Char} {c : Char} (h : Reached s done)
    (hnext : s.take c = some next) : Reached next (done ++ [c]) := by
  cases h with
  | @word found read done hrow =>
    simp only [Scanner.take] at hnext
    split at hnext
    · rename_i hblank
      obtain ⟨found', hended, rfl⟩ := Option.map_eq_some_iff.mp hnext
      exact fresh ((row_of_ended hrow hended).concat_blank hblank)
    · split at hnext
      · rename_i hquote
        obtain ⟨found', hended, rfl⟩ := Option.map_eq_some_iff.mp hnext
        subst hquote
        exact .literal (row_of_ended hrow hended) .done
      · split at hnext
        · rename_i mark hmark
          obtain ⟨found', hended, rfl⟩ := Option.map_eq_some_iff.mp hnext
          have hconcat := (row_of_ended hrow hended).concat (stands_of_ofMark? hmark)
          rw [← List.reverse_cons] at hconcat
          exact fresh hconcat
        · cases hnext
          have hword : Reached ⟨found, .word (c :: read)⟩ (done ++ (c :: read).reverse) :=
            .word hrow
          rwa [List.reverse_cons, ← List.append_assoc] at hword
  | @literal found ps done body hrow hbody =>
    simp only [Scanner.take] at hnext
    split at hnext
    · rename_i hquote
      cases hnext
      subst hquote
      have hstands : (Token.string ⟨ps.reverse⟩).Stands ('"' :: body ++ ['"']) :=
        ⟨body, hbody, rfl⟩
      have hconcat := hrow.concat hstands
      rw [← List.reverse_cons, ← List.append_assoc] at hconcat
      exact fresh hconcat
    · rename_i hquote
      split at hnext
      · rename_i hslash
        cases hnext
        subst hslash
        exact .escape hrow hbody
      · rename_i hslash
        split at hnext
        · cases hnext
        · rename_i hcontrol
          cases hnext
          have hmore : Literal.Spells (c.toNat :: ps).reverse (body ++ [c]) := by
            rw [List.reverse_cons]
            exact hbody.append (.plain hquote hslash (Nat.le_of_not_lt hcontrol) .done)
          simpa using Reached.literal hrow hmore
  | @escape found ps done body hrow hbody =>
    simp only [Scanner.take] at hnext
    split at hnext
    · rename_i hmark
      cases hnext
      subst hmark
      have hcode : Reached ⟨found, .code ps 0 4⟩ (done ++ '"' :: body ++ '\\' :: 'u' :: []) :=
        .code hrow hbody rfl rfl (by decide)
      simpa using hcode
    · obtain ⟨p, hmark, rfl⟩ := Option.map_eq_some_iff.mp hnext
      have hmore : Literal.Spells (p :: ps).reverse (body ++ ['\\', c]) := by
        rw [List.reverse_cons]
        exact hbody.append (.escape hmark .done)
      simpa using Reached.literal hrow hmore
  | @code found ps done body digits value missing hrow hbody hdigits hlength hmissing =>
    simp only [Scanner.take] at hnext
    obtain ⟨digit, hdigit, rfl⟩ := Option.map_eq_some_iff.mp hnext
    have hall : (digits ++ [c]).foldlM (fun value c => (hexValue? c).map (16 * value + ·)) 0 =
        some (16 * value + digit) := by
      simp [hdigits, hdigit]
    split
    · have hfour : (digits ++ [c]).length = 4 := by
        rw [List.length_append, List.length_singleton]
        omega
      have hmore : Literal.Spells ((16 * value + digit) :: ps).reverse
          (body ++ '\\' :: 'u' :: (digits ++ [c])) := by
        rw [List.reverse_cons]
        have hlast := Literal.Spells.code (codeValue?_of_foldlM hall hfour) .done
        rw [List.append_nil] at hlast
        exact hbody.append hlast
      simpa using Reached.literal hrow hmore
    · have hfour : (digits ++ [c]).length + (missing - 1) = 4 := by
        rw [List.length_append, List.length_singleton]
        omega
      simpa using Reached.code hrow hbody hall hfour (by omega)

theorem foldlM_take {s last : Scanner} {done cs : List Char} (h : Reached s done)
    (hlast : cs.foldlM Scanner.take s = some last) : Reached last (done ++ cs) := by
  induction cs generalizing s done with
  | nil =>
    cases hlast
    rwa [List.append_nil]
  | cons c cs ih =>
    rw [List.foldlM_cons] at hlast
    obtain ⟨next, hnext, hrest⟩ := Option.bind_eq_some_iff.mp hlast
    rw [← List.singleton_append, ← List.append_assoc]
    exact ih (h.take hnext) hrest

theorem row_of_finish {s : Scanner} {done : List Char} {ts : List Token} (h : Reached s done)
    (hfinish : s.finish = some ts) : Row Stands ts done := by
  cases h with
  | word hrow =>
    obtain ⟨found, hended, rfl⟩ := Option.map_eq_some_iff.mp hfinish
    exact row_of_ended hrow hended
  | _ => cases hfinish

end Reached

end Scanner

/-- The tokens that are found in a text stand in it in a row. -/
theorem row_of_scan? {cs : List Char} {ts : List Token} (h : scan? cs = some ts) :
    Row Stands ts cs := by
  obtain ⟨last, hlast, hfinish⟩ := Option.bind_eq_some_iff.mp h
  exact ((Scanner.Reached.fresh .done).foldlM_take hlast).row_of_finish hfinish

end Microboard.Json.Token
