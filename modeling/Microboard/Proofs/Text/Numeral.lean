import Mathlib.Data.List.Induction
import Microboard.Text.Blank
import Microboard.Text.Numeral

/-!
# What numerals denote

A numeral is known by its digits, of which each further one makes ten times the number and adds its
own value. Exactly the numerals of numbers below the bound are read: `numeral?_eq_some_iff`. There
are no blanks in a numeral, so that trimming finds it between any blanks: `writes_iff`.
-/

namespace Microboard.Text

/-! ### Digits -/

/-- One or more decimal digits, and the number that they denote. -/
inductive Decimal : List Char → Nat → Prop
  | digit {d : Nat} (hd : d < 10) : Decimal [Nat.digitChar d] d
  | more {cs : List Char} {n d : Nat} (h : Decimal cs n) (hd : d < 10) :
      Decimal (cs ++ [Nat.digitChar d]) (10 * n + d)

/-- Digits with at most one plus sign in front of them, and the number that they denote. -/
inductive Natural : List Char → Nat → Prop
  | bare {cs : List Char} {n : Nat} (h : Decimal cs n) : Natural cs n
  | plus {cs : List Char} {n : Nat} (h : Decimal cs n) : Natural ('+' :: cs) n

theorem exists_digitChar {c : Char} (h : c.isDigit = true) :
    ∃ d, d < 10 ∧ c = Nat.digitChar d ∧ c.toNat - '0'.toNat = d := by
  have hzero : '0'.toNat = 48 := rfl
  have hnine : '9'.toNat = 57 := rfl
  simp only [Char.isDigit, Bool.and_eq_true, decide_eq_true_eq] at h
  have hlow : '0'.toNat ≤ c.toNat := UInt32.le_iff_toNat_le.mp h.1
  have hhigh : c.toNat ≤ '9'.toNat := UInt32.le_iff_toNat_le.mp h.2
  have hlt : c.toNat - '0'.toNat < 10 := by omega
  refine ⟨c.toNat - '0'.toNat, hlt, ?_, rfl⟩
  apply Char.toNat_inj.mp
  rw [Nat.toNat_digitChar_of_lt_ten hlt]
  omega

theorem isDigit_digitChar {d : Nat} (hd : d < 10) : (Nat.digitChar d).isDigit = true := by
  rw [Nat.isDigit_digitChar]
  exact decide_eq_true hd

namespace Decimal

variable {cs : List Char} {n : Nat}

theorem ne_nil (h : Decimal cs n) : cs ≠ [] := by
  cases h with
  | digit hd => exact List.cons_ne_nil _ _
  | more h hd => exact List.append_ne_nil_of_right_ne_nil _ (List.cons_ne_nil _ _)

theorem isDigit (h : Decimal cs n) : ∀ c ∈ cs, c.isDigit = true := by
  induction h with
  | digit hd => exact List.forall_mem_singleton.mpr (isDigit_digitChar hd)
  | more h hd ih =>
    exact List.forall_mem_append.mpr
      ⟨ih, List.forall_mem_singleton.mpr (isDigit_digitChar hd)⟩

/-- Digits go through the same sum when they are read from the front. -/
theorem foldl_eq (h : Decimal cs n) :
    cs.foldl (fun value c => 10 * value + (c.toNat - '0'.toNat)) 0 = n := by
  have hvalue : ∀ d < 10, (Nat.digitChar d).toNat - '0'.toNat = d := fun d hd =>
    Nat.toNat_digitChar_sub_48_of_lt_ten hd
  induction h with
  | digit hd => rw [List.foldl_cons, List.foldl_nil, hvalue _ hd, Nat.mul_zero, Nat.zero_add]
  | more h hd ih => rw [List.foldl_append, ih, List.foldl_cons, List.foldl_nil, hvalue _ hd]

theorem of_all (hne : cs ≠ []) (hall : ∀ c ∈ cs, c.isDigit = true) :
    Decimal cs (cs.foldl (fun value c => 10 * value + (c.toNat - '0'.toNat)) 0) := by
  -- The induction is on the last digit, as that is the one which counts once.
  induction cs using List.reverseRecOn with
  | nil => exact absurd rfl hne
  | append_singleton cs c ih =>
    obtain ⟨hfront, hlast⟩ := List.forall_mem_append.mp hall
    obtain ⟨d, hd, hc, hvalue⟩ := exists_digitChar (hlast c List.mem_cons_self)
    rw [List.foldl_append, List.foldl_cons, List.foldl_nil, hvalue, hc]
    by_cases hnil : cs = []
    · subst hnil
      rw [List.nil_append, List.foldl_nil, Nat.mul_zero, Nat.zero_add]
      exact .digit hd
    · exact .more (ih hnil hfront) hd

end Decimal

theorem digits?_eq_some_iff {cs : List Char} {n : Nat} : digits? cs = some n ↔ Decimal cs n := by
  constructor
  · intro h
    unfold digits? at h
    split at h
    · cases h
    · rename_i hgood
      simp only [Bool.or_eq_true, List.isEmpty_iff, Bool.not_eq_true', not_or,
        Bool.not_eq_false] at hgood
      obtain ⟨hne, hall⟩ := hgood
      rw [← Option.some.inj h]
      exact Decimal.of_all hne (List.all_eq_true.mp hall)
  · intro h
    have hnonempty : cs.isEmpty = false := List.isEmpty_eq_false_iff.mpr h.ne_nil
    have hall : cs.all Char.isDigit = true := List.all_eq_true.mpr h.isDigit
    simp only [digits?, hnonempty, hall, Bool.not_true, Bool.or_false, Bool.false_eq_true,
      if_false, h.foldl_eq]

/-! ### Signs -/

theorem not_decimal_plus {cs : List Char} {n : Nat} : ¬ Decimal ('+' :: cs) n := by
  intro h
  cases h.isDigit '+' List.mem_cons_self

theorem natural_plus_iff {cs : List Char} {n : Nat} : Natural ('+' :: cs) n ↔ Decimal cs n := by
  constructor
  · intro h
    cases h with
    | bare h => exact absurd h not_decimal_plus
    | plus h => exact h
  · exact .plus

theorem natural_iff_of_ne {cs : List Char} {n : Nat} (hplus : ∀ rest, cs ≠ '+' :: rest) :
    Natural cs n ↔ Decimal cs n := by
  constructor
  · intro h
    cases h with
    | bare h => exact h
    | plus h => exact absurd rfl (hplus _)
  · exact .bare

/-- Exactly the numerals of numbers below the bound are read. -/
theorem numeral?_eq_some_iff {bound : Nat} {cs : List Char} {n : Nat} :
    numeral? bound cs = some n ↔ Natural cs n ∧ n < bound := by
  have hread : ∀ digits : List Char, (digits? digits).filter (· < bound) = some n ↔
      Decimal digits n ∧ n < bound := by
    intro digits
    rw [Option.filter_eq_some_iff, digits?_eq_some_iff, decide_eq_true_eq]
  by_cases hplus : ∃ rest, cs = '+' :: rest
  · obtain ⟨rest, rfl⟩ := hplus
    rw [natural_plus_iff]
    exact hread rest
  · have hne : ∀ rest, cs ≠ '+' :: rest := by
      intro rest hcs
      exact hplus ⟨rest, hcs⟩
    have hbare : numeral? bound cs = (digits? cs).filter (· < bound) := by
      unfold numeral?
      split
      · exact absurd rfl (hne _)
      · rfl
    rw [hbare, natural_iff_of_ne hne]
    exact hread cs

/-! ### Blanks around a numeral -/

theorem Natural.ne_nil {cs : List Char} {n : Nat} (h : Natural cs n) : cs ≠ [] := by
  cases h with
  | bare h => exact h.ne_nil
  | plus h => exact List.cons_ne_nil _ _

theorem Natural.notBlank {cs : List Char} {n : Nat} (h : Natural cs n) :
    ∀ c ∈ cs, isBlank c = false := by
  have hdigit : ∀ d < 10, isBlank (Nat.digitChar d) = false := by decide
  have hdigits : ∀ digits : List Char, Decimal digits n → ∀ c ∈ digits, isBlank c = false := by
    intro digits hdecimal c hc
    obtain ⟨d, hd, rfl, -⟩ := exists_digitChar (hdecimal.isDigit c hc)
    exact hdigit d hd
  cases h with
  | bare h => exact hdigits _ h
  | plus h => exact List.forall_mem_cons.mpr ⟨by decide, hdigits _ h⟩

theorem dropWhile_blanks {blanks rest : List Char} (hblanks : ∀ c ∈ blanks, isBlank c = true)
    (hne : rest ≠ []) (hrest : ∀ c ∈ rest, isBlank c = false) (behind : List Char) :
    (blanks ++ (rest ++ behind)).dropWhile isBlank = rest ++ behind := by
  rw [List.dropWhile_append_of_pos hblanks]
  cases rest with
  | nil => exact absurd rfl hne
  | cons c rest =>
    apply List.dropWhile_cons_of_neg
    rw [hrest c List.mem_cons_self]
    exact Bool.false_ne_true

/-- Trimming finds what has no blanks in it. -/
theorem trim_append {before core behind : List Char} (hbefore : ∀ c ∈ before, isBlank c = true)
    (hbehind : ∀ c ∈ behind, isBlank c = true) (hne : core ≠ [])
    (hcore : ∀ c ∈ core, isBlank c = false) : trim (before ++ core ++ behind) = core := by
  have hfront := dropWhile_blanks hbefore hne hcore behind
  have hblanks : ∀ c ∈ behind.reverse, isBlank c = true := by simpa
  have hrest : ∀ c ∈ core.reverse, isBlank c = false := by simpa
  have hback := dropWhile_blanks hblanks (List.reverse_ne_nil_iff.mpr hne) hrest []
  rw [List.append_nil] at hback
  rw [trim, List.append_assoc, hfront, List.reverse_append, hback, List.reverse_reverse]

/-- Trimming takes away nothing but blanks. -/
theorem exists_trim (cs : List Char) :
    ∃ before behind, cs = before ++ trim cs ++ behind ∧ (∀ c ∈ before, isBlank c = true) ∧
      ∀ c ∈ behind, isBlank c = true := by
  have hfront := List.takeWhile_append_dropWhile (p := isBlank) (l := cs)
  have hback := List.takeWhile_append_dropWhile (p := isBlank)
    (l := (cs.dropWhile isBlank).reverse)
  have hrest := congrArg List.reverse hback
  rw [List.reverse_append, List.reverse_reverse] at hrest
  refine ⟨cs.takeWhile isBlank, ((cs.dropWhile isBlank).reverse.takeWhile isBlank).reverse,
    ?_, ?_, ?_⟩
  · rw [trim, List.append_assoc, hrest, hfront]
  · exact List.all_eq_true.mp List.all_takeWhile
  · intro c hc
    exact List.all_eq_true.mp List.all_takeWhile c (List.mem_reverse.mp hc)

/-- A text consists of a numeral and of blanks around it. -/
def Writes (raw : String) (n : Nat) : Prop :=
  ∃ before numeral behind, raw.toList = before ++ numeral ++ behind ∧ Natural numeral n ∧
    (∀ c ∈ before, isBlank c = true) ∧ ∀ c ∈ behind, isBlank c = true

theorem writes_iff {raw : String} {n : Nat} : Writes raw n ↔ Natural (trim raw.toList) n := by
  constructor
  · rintro ⟨before, numeral, behind, hraw, hnumeral, hbefore, hbehind⟩
    rwa [hraw, trim_append hbefore hbehind hnumeral.ne_nil hnumeral.notBlank]
  · intro h
    obtain ⟨before, behind, hraw, hbefore, hbehind⟩ := exists_trim raw.toList
    exact ⟨before, trim raw.toList, behind, hraw, h, hbefore, hbehind⟩

end Microboard.Text
