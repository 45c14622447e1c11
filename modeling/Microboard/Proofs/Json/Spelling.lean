import Microboard.Json.Token

/-!
# How characters are written in a string literal

A character of a string literal can stand for itself, or be escaped in one or several ways:
`Spelling` says which texts can be written how. The scanner finds the code points of a text first,
and joins surrogates afterwards; `Spells` is the relation in between, and `spelling_iff` puts the
two together.
-/

namespace Microboard.Json

open Token

namespace Literal

/-- The number that four hexadecimal digits denote. -/
def codeValue? : List Char → Option Nat
  | [a, b, c, d] => do
    return 4096 * (← hexValue? a) + 256 * (← hexValue? b) + 16 * (← hexValue? c) + (← hexValue? d)
  | _ => none

/-- Characters, and how they can be written between the quotes of a literal: as themselves, unless
    they are quotes, backslashes or control characters; with one of the short escapes; by the number
    of the character; or, beyond the first 65536, by the numbers of two surrogates. -/
inductive Spelling : List Char → List Char → Prop
  | done : Spelling [] []
  | plain {c : Char} {cs body : List Char} (hquote : c ≠ '"') (hslash : c ≠ '\\')
      (hcontrol : 0x20 ≤ c.toNat) (h : Spelling cs body) : Spelling (c :: cs) (c :: body)
  | escape {mark c : Char} {cs body : List Char} (hmark : escape? mark = some c.toNat)
      (h : Spelling cs body) : Spelling (c :: cs) ('\\' :: mark :: body)
  | code {digits : List Char} {c : Char} {cs body : List Char}
      (hdigits : codeValue? digits = some c.toNat) (h : Spelling cs body) :
      Spelling (c :: cs) ('\\' :: 'u' :: digits ++ body)
  | pair {digits more : List Char} {high low : Nat} {c : Char} {cs body : List Char}
      (hdigits : codeValue? digits = some (0xD800 + high)) (hhigh : high < 0x400)
      (hmore : codeValue? more = some (0xDC00 + low)) (hlow : low < 0x400)
      (hc : c.toNat = 0x10000 + 0x400 * high + low) (h : Spelling cs body) :
      Spelling (c :: cs) ('\\' :: 'u' :: digits ++ ('\\' :: 'u' :: more ++ body))

/-- Code points, surrogates among them, and how they can be written. -/
inductive Spells : List Nat → List Char → Prop
  | done : Spells [] []
  | plain {c : Char} {ps : List Nat} {body : List Char} (hquote : c ≠ '"') (hslash : c ≠ '\\')
      (hcontrol : 0x20 ≤ c.toNat) (h : Spells ps body) : Spells (c.toNat :: ps) (c :: body)
  | escape {mark : Char} {p : Nat} {ps : List Nat} {body : List Char}
      (hmark : escape? mark = some p) (h : Spells ps body) :
      Spells (p :: ps) ('\\' :: mark :: body)
  | code {digits : List Char} {p : Nat} {ps : List Nat} {body : List Char}
      (hdigits : codeValue? digits = some p) (h : Spells ps body) :
      Spells (p :: ps) ('\\' :: 'u' :: digits ++ body)

/-! ### Code points -/

theorem toNat_le_of_le {c d : Char} (h : c ≤ d) : c.toNat ≤ d.toNat :=
  UInt32.le_iff_toNat_le.mp h

theorem hexValue?_lt {c : Char} {n : Nat} (h : hexValue? c = some n) : n < 16 := by
  have hzero : '0'.toNat = 48 := rfl
  have hnine : '9'.toNat = 57 := rfl
  have hlower : 'a'.toNat = 97 ∧ 'f'.toNat = 102 := ⟨rfl, rfl⟩
  have hupper : 'A'.toNat = 65 ∧ 'F'.toNat = 70 := ⟨rfl, rfl⟩
  simp only [hexValue?, Bool.and_eq_true, decide_eq_true_eq] at h
  split at h
  · rename_i hdigit
    simp only [Char.isDigit, Bool.and_eq_true, decide_eq_true_eq] at hdigit
    have hle : c.toNat ≤ '9'.toNat := toNat_le_of_le hdigit.2
    cases h
    omega
  · split at h
    · rename_i hrange
      have hle := toNat_le_of_le hrange.2
      cases h
      omega
    · split at h
      · rename_i hrange
        have hle := toNat_le_of_le hrange.2
        cases h
        omega
      · cases h

theorem codeValue?_eq_some {digits : List Char} {p : Nat} (h : codeValue? digits = some p) :
    ∃ a b c d w x y z, digits = [a, b, c, d] ∧ hexValue? a = some w ∧ hexValue? b = some x ∧
      hexValue? c = some y ∧ hexValue? d = some z ∧ p = 4096 * w + 256 * x + 16 * y + z := by
  unfold codeValue? at h
  split at h
  · rename_i a b c d
    simp only [Option.bind_eq_bind, Option.bind_eq_some_iff, Option.pure_def,
      Option.some.injEq] at h
    obtain ⟨w, hw, x, hx, y, hy, z, hz, rfl⟩ := h
    exact ⟨a, b, c, d, w, x, y, z, rfl, hw, hx, hy, hz, rfl⟩
  · cases h

theorem codeValue?_lt {digits : List Char} {p : Nat} (h : codeValue? digits = some p) :
    p < 0x10000 := by
  obtain ⟨a, b, c, d, w, x, y, z, -, hw, hx, hy, hz, rfl⟩ := codeValue?_eq_some h
  have := hexValue?_lt hw
  have := hexValue?_lt hx
  have := hexValue?_lt hy
  have := hexValue?_lt hz
  omega

theorem escape?_lt {mark : Char} {p : Nat} (h : escape? mark = some p) : p < 0x80 := by
  unfold escape? at h
  split at h
  case h_9 => cases h
  all_goals
    cases h
    decide

theorem toNat_ofNat {p : Nat} (h : p < 0x110000) (hhigh : isHigh p = false)
    (hlow : isLow p = false) : (Char.ofNat p).toNat = p := by
  have hvalid : p.isValidChar := by
    simp only [isHigh, isLow, Bool.and_eq_false_iff, decide_eq_false_iff_not] at hhigh hlow
    simp only [Nat.isValidChar]
    omega
  rw [Char.ofNat, dif_pos hvalid]
  rfl

theorem isHigh_iff {p : Nat} : isHigh p = true ↔ ∃ high, p = 0xD800 + high ∧ high < 0x400 := by
  simp only [isHigh, Bool.and_eq_true, decide_eq_true_eq]
  constructor
  · intro h
    exact ⟨p - 0xD800, by omega, by omega⟩
  · rintro ⟨high, rfl, hlt⟩
    omega

theorem isLow_iff {p : Nat} : isLow p = true ↔ ∃ low, p = 0xDC00 + low ∧ low < 0x400 := by
  simp only [isLow, Bool.and_eq_true, decide_eq_true_eq]
  constructor
  · intro h
    exact ⟨p - 0xDC00, by omega, by omega⟩
  · rintro ⟨low, rfl, hlt⟩
    omega

theorem toNat_joined {high low : Nat} (hhigh : high < 0x400) (hlow : low < 0x400) :
    (joined (0xD800 + high) (0xDC00 + low)).toNat = 0x10000 + 0x400 * high + low := by
  have hnumber : 0x10000 + (0xD800 + high - 0xD800) * 0x400 + (0xDC00 + low - 0xDC00) =
      0x10000 + 0x400 * high + low := by
    omega
  have hnot : isHigh (0x10000 + 0x400 * high + low) = false ∧
      isLow (0x10000 + 0x400 * high + low) = false := by
    simp [isHigh, isLow]
    omega
  rw [joined, hnumber, toNat_ofNat (by omega) hnot.1 hnot.2]

/-! ### From characters to code points and back -/

theorem Spelling.spells {cs body : List Char} (h : Spelling cs body) :
    ∃ ps, Spells ps body ∧ ∀ read, characters read none ps = some (read.reverse ++ cs) := by
  induction h with
  | done => exact ⟨[], .done, fun read => by simp [characters]⟩
  | @plain c _ _ hquote hslash hcontrol _ ih =>
    obtain ⟨ps, hps, hread⟩ := ih
    refine ⟨c.toNat :: ps, .plain hquote hslash hcontrol hps, ?_⟩
    intro read
    simp [characters, isHigh_toNat, isLow_toNat, hread]
  | @escape _ c _ _ hmark _ ih =>
    obtain ⟨ps, hps, hread⟩ := ih
    refine ⟨c.toNat :: ps, .escape hmark hps, ?_⟩
    intro read
    simp [characters, isHigh_toNat, isLow_toNat, hread]
  | @code _ c _ _ hdigits _ ih =>
    obtain ⟨ps, hps, hread⟩ := ih
    refine ⟨c.toNat :: ps, .code hdigits hps, ?_⟩
    intro read
    simp [characters, isHigh_toNat, isLow_toNat, hread]
  | @pair _ _ high low c _ _ hdigits hhigh hmore hlow hc _ ih =>
    obtain ⟨ps, hps, hread⟩ := ih
    refine ⟨_, .code hdigits (.code hmore hps), ?_⟩
    intro read
    have hfirst : isHigh (0xD800 + high) = true := isHigh_iff.mpr ⟨high, rfl, hhigh⟩
    have hsecond : isLow (0xDC00 + low) = true := isLow_iff.mpr ⟨low, rfl, hlow⟩
    have hjoined : joined (0xD800 + high) (0xDC00 + low) = c :=
      Char.toNat_inj.mp ((toNat_joined hhigh hlow).trans hc.symm)
    simp [characters, hfirst, hsecond, hjoined, hread]

/-- What code points stand for, and what they stand for behind a high surrogate that has been
    written already. -/
theorem Spells.spelling {ps : List Nat} {body : List Char} (h : Spells ps body) :
    (∀ read cs, characters read none ps = some cs →
      ∃ rest, cs = read.reverse ++ rest ∧ Spelling rest body) ∧
    ∀ read cs digits high, isHigh high = true → codeValue? digits = some high →
      characters read (some high) ps = some cs →
      ∃ rest, cs = read.reverse ++ rest ∧ Spelling rest ('\\' :: 'u' :: digits ++ body) := by
  induction h with
  | done =>
    constructor
    · intro read cs hread
      simp only [characters, Option.isNone_none, if_true, Option.some.injEq] at hread
      exact ⟨[], by simp [hread], .done⟩
    · intro read cs digits high _ _ hread
      cases hread
  | @plain c _ _ hquote hslash hcontrol _ ih =>
    constructor
    · intro read cs hread
      simp only [characters, isHigh_toNat, isLow_toNat, Bool.false_eq_true, if_false,
        Char.ofNat_toNat] at hread
      obtain ⟨rest, hcs, hrest⟩ := ih.1 _ _ hread
      exact ⟨c :: rest, by simp [hcs], .plain hquote hslash hcontrol hrest⟩
    · intro read cs digits high _ _ hread
      simp [characters, isLow_toNat] at hread
  | @escape mark p _ _ hmark _ ih =>
    have hlt := escape?_lt hmark
    have hhigh : isHigh p = false := by
      simp [isHigh]
      omega
    have hlow : isLow p = false := by
      simp [isLow]
      omega
    have hp : (Char.ofNat p).toNat = p := toNat_ofNat (by omega) hhigh hlow
    constructor
    · intro read cs hread
      simp only [characters, hhigh, hlow, Bool.false_eq_true, if_false] at hread
      obtain ⟨rest, hcs, hrest⟩ := ih.1 _ _ hread
      exact ⟨Char.ofNat p :: rest, by simp [hcs], .escape (by rwa [hp]) hrest⟩
    · intro read cs digits high _ _ hread
      simp [characters, hlow] at hread
  | @code digits p _ _ hdigits _ ih =>
    have hlt := codeValue?_lt hdigits
    constructor
    · intro read cs hread
      -- A high surrogate waits for the low one that has to come next; it is no character yet.
      cases hhigh : isHigh p with
      | true =>
        simp only [characters, hhigh, if_true] at hread
        exact ih.2 read cs digits p hhigh hdigits hread
      | false =>
        cases hlow : isLow p with
        | true => simp [characters, hhigh, hlow] at hread
        | false =>
          have hp : (Char.ofNat p).toNat = p := toNat_ofNat (by omega) hhigh hlow
          simp only [characters, hhigh, hlow, Bool.false_eq_true, if_false] at hread
          obtain ⟨rest, hcs, hrest⟩ := ih.1 _ _ hread
          exact ⟨Char.ofNat p :: rest, by simp [hcs], .code (by rwa [hp]) hrest⟩
    · intro read cs before high hhigh hbefore hread
      cases hlow : isLow p with
      | false => simp [characters, hlow] at hread
      | true =>
        simp only [characters, hlow, if_true] at hread
        obtain ⟨rest, hcs, hrest⟩ := ih.1 _ _ hread
        obtain ⟨h, rfl, hh⟩ := isHigh_iff.mp hhigh
        obtain ⟨l, rfl, hl⟩ := isLow_iff.mp hlow
        refine ⟨joined (0xD800 + h) (0xDC00 + l) :: rest, by simp [hcs], ?_⟩
        exact .pair hbefore hh hdigits hl (toNat_joined hh hl) hrest

/-- The code points that are written stand for the characters that are written. -/
theorem spelling_iff {cs body : List Char} :
    Spelling cs body ↔ ∃ ps, Spells ps body ∧ characters [] none ps = some cs := by
  constructor
  · intro h
    obtain ⟨ps, hps, hread⟩ := h.spells
    exact ⟨ps, hps, hread []⟩
  · rintro ⟨ps, hps, hread⟩
    obtain ⟨rest, rfl, hrest⟩ := hps.spelling.1 [] cs hread
    exact hrest

theorem Spells.append {ps qs : List Nat} {body more : List Char} (h : Spells ps body)
    (hmore : Spells qs more) : Spells (ps ++ qs) (body ++ more) := by
  induction h with
  | done => exact hmore
  | plain hquote hslash hcontrol _ ih => exact .plain hquote hslash hcontrol ih
  | escape hmark _ ih => exact .escape hmark ih
  | @code digits p ps body hdigits _ ih =>
    have h := Spells.code hdigits ih
    rwa [← List.append_assoc] at h

/-! ### The spelling of the writer -/

theorem hexValue?_hexDigit : ∀ digit < 16, hexValue? (hexDigit digit) = some digit := by
  decide

theorem spells_numericEscape {p : Nat} (h : p < 0x10000) : Spells [p] (numericEscape p) := by
  have hdigit (n : Nat) : hexValue? (hexDigit (n % 16)) = some (n % 16) :=
    hexValue?_hexDigit (n % 16) (Nat.mod_lt n (by decide))
  have hvalue : codeValue? [hexDigit (p / 4096 % 16), hexDigit (p / 256 % 16),
      hexDigit (p / 16 % 16), hexDigit (p % 16)] = some p := by
    simp only [codeValue?, hdigit, Option.bind_eq_bind, Option.bind_some, Option.pure_def,
      Option.some.injEq]
    omega
  exact .code hvalue .done

theorem spells_spell (c : Char) : Spells [c.toNat] (spell c.toNat) := by
  by_cases hshort : c.toNat ∈ [0x22, 0x5C, 0x08, 0x09, 0x0A, 0x0C, 0x0D]
  · simp only [List.mem_cons, List.not_mem_nil, or_false] at hshort
    rcases hshort with h | h | h | h | h | h | h <;> rw [h] <;> exact .escape rfl .done
  · simp only [List.mem_cons, List.not_mem_nil, or_false, not_or] at hshort
    obtain ⟨hquote, hslash, hback, htab, hline, hfeed, hreturn⟩ := hshort
    simp only [spell, hquote, hslash, hback, htab, hline, hfeed, hreturn, if_false, isHigh_toNat,
      isLow_toNat, Bool.or_false, decide_eq_true_eq]
    split
    · exact spells_numericEscape (by omega)
    · rename_i hcontrol
      rw [Char.ofNat_toNat]
      refine .plain ?_ ?_ (Nat.le_of_not_lt hcontrol) .done
      · rintro rfl
        exact hquote rfl
      · rintro rfl
        exact hslash rfl

theorem spells_ofText (s : String) :
    Spells (ofText s).points ((ofText s).points.flatMap spell) := by
  rw [ofText]
  induction s.toList with
  | nil => exact .done
  | cons c cs ih => exact (spells_spell c).append ih

/-! ### Scanning -/

theorem foldlM_digits {digits : List Char} {p : Nat} (h : codeValue? digits = some p)
    (found : List Token) (read : List Nat) :
    digits.foldlM Scanner.take ⟨found, .code read 0 4⟩ = some ⟨found, .literal (p :: read)⟩ := by
  obtain ⟨a, b, c, d, w, x, y, z, rfl, hw, hx, hy, hz, rfl⟩ := codeValue?_eq_some h
  have hvalue : 16 * (16 * (16 * (16 * 0 + w) + x) + y) + z = 4096 * w + 256 * x + 16 * y + z := by
    omega
  simp [Scanner.take, hw, hx, hy, hz, ← hvalue]

/-- However code points are written, the scanner finds them. -/
theorem Spells.foldlM_take {ps : List Nat} {body : List Char} (h : Spells ps body)
    (found : List Token) (read : List Nat) :
    body.foldlM Scanner.take ⟨found, .literal read⟩ =
      some ⟨found, .literal (ps.reverse ++ read)⟩ := by
  induction h generalizing read with
  | done => rfl
  | @plain c _ _ hquote hslash hcontrol _ ih =>
    have hlt : ¬c.toNat < 0x20 := Nat.not_lt.mpr hcontrol
    rw [List.foldlM_cons]
    simp [Scanner.take, hquote, hslash, hlt, ih]
  | @escape mark p _ _ hmark _ ih =>
    have hu : mark ≠ 'u' := by
      rintro rfl
      cases hmark
    have hslash : Scanner.take ⟨found, .literal read⟩ '\\' = some ⟨found, .escape read⟩ := rfl
    have htake : Scanner.take ⟨found, .escape read⟩ mark = some ⟨found, .literal (p :: read)⟩ := by
      simp [Scanner.take, hmark, hu]
    simp [hslash, htake, ih]
  | @code digits p _ _ hdigits _ ih =>
    have hslash : Scanner.take ⟨found, .literal read⟩ '\\' = some ⟨found, .escape read⟩ := rfl
    have hmark : Scanner.take ⟨found, .escape read⟩ 'u' = some ⟨found, .code read 0 4⟩ := rfl
    simp [hslash, hmark, foldlM_digits hdigits, ih]

end Literal

end Microboard.Json
