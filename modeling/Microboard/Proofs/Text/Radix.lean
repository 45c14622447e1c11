import Microboard.Text.Radix

/-!
# Numerals determine their numbers

A decimal or hexadecimal numeral is written for one number only: `decimal_inj`, `hexadecimal_inj`.
Numerals and other words have no punctuation in them, so that a text in which they stand between
punctuation can be taken apart in one way only: `Word.append_cons_inj`, `intercalate_inj`.
-/

namespace Microboard.Text

/-! ### Words -/

/-- A text of letters and digits. -/
def Word (s : String) : Prop :=
  ∀ c ∈ s.toList, c.isAlphanum = true

theorem word_of_all {s : String} (h : s.toList.all Char.isAlphanum = true) : Word s :=
  List.all_eq_true.mp h

theorem Word.append {s t : String} (hs : Word s) (ht : Word t) : Word (s ++ t) := by
  intro c hc
  rw [String.toList_append, List.mem_append] at hc
  rcases hc with hc | hc
  · exact hs c hc
  · exact ht c hc

theorem Word.notMem {s : String} (h : Word s) {c : Char} (hc : c.isAlphanum = false) :
    c ∉ s.toList := by
  intro hmem
  cases hc.symm.trans (h c hmem)

/-- What stands in front of the first mark is known, and so is what stands behind it. -/
theorem append_cons_inj {mark : Char} {l m r s : List Char} (hl : mark ∉ l) (hm : mark ∉ m)
    (h : l ++ mark :: r = m ++ mark :: s) : l = m ∧ r = s := by
  induction l generalizing m with
  | nil =>
    cases m with
    | nil => exact ⟨rfl, (List.cons.inj h).2⟩
    | cons d m =>
      rw [(List.cons.inj h).1] at hm
      exact absurd List.mem_cons_self hm
  | cons c l ih =>
    cases m with
    | nil =>
      rw [← (List.cons.inj h).1] at hl
      exact absurd List.mem_cons_self hl
    | cons d m =>
      rw [List.cons_append, List.cons_append, List.cons.injEq] at h
      rw [List.mem_cons, not_or] at hl hm
      obtain ⟨rfl, hrest⟩ := ih hl.2 hm.2 h.2
      exact ⟨by rw [h.1], hrest⟩

/-- A word ends where the first mark stands. -/
theorem Word.append_cons_inj {s t : String} (hs : Word s) (ht : Word t) {mark : Char}
    (hmark : mark.isAlphanum = false) {l m : List Char}
    (h : s.toList ++ mark :: l = t.toList ++ mark :: m) : s = t ∧ l = m := by
  obtain ⟨hword, hrest⟩ := Text.append_cons_inj (hs.notMem hmark) (ht.notMem hmark) h
  exact ⟨String.toList_inj.mp hword, hrest⟩

/-! ### Words with commas between them -/

theorem toList_intercalate_cons_cons (s u : String) (l : List String) :
    (", ".intercalate (s :: u :: l)).toList =
      s.toList ++ ',' :: ' ' :: (", ".intercalate (u :: l)).toList := by
  rw [String.intercalate_cons_cons, String.append_assoc, String.toList_append,
    String.toList_append]
  rfl

/-- There is no other punctuation than the commas and the spaces. -/
theorem notMem_intercalate {ss : List String} (hss : ∀ s ∈ ss, Word s) {c : Char}
    (hc : c.isAlphanum = false) (hcomma : c ≠ ',') (hspace : c ≠ ' ') :
    c ∉ (", ".intercalate ss).toList := by
  induction ss with
  | nil => exact List.not_mem_nil
  | cons s ss ih =>
    obtain ⟨hword, hwords⟩ := List.forall_mem_cons.mp hss
    cases ss with
    | nil =>
      rw [String.intercalate_singleton]
      exact hword.notMem hc
    | cons u ss =>
      rw [toList_intercalate_cons_cons, List.mem_append, List.mem_cons, List.mem_cons]
      rintro (hfirst | hmark | hmark | hrest)
      · exact hword.notMem hc hfirst
      · exact hcomma hmark
      · exact hspace hmark
      · exact ih hwords hrest

/-- A list of words is longer than one word, if it has a comma. -/
theorem intercalate_ne_word {s u v : String} {l : List String} (hv : Word v) :
    ", ".intercalate (s :: u :: l) ≠ v := by
  rintro rfl
  refine hv.notMem (c := ',') rfl ?_
  rw [toList_intercalate_cons_cons]
  exact List.mem_append_right _ List.mem_cons_self

theorem intercalate_inj {ss ts : List String} (hss : ∀ s ∈ ss, Word s) (hts : ∀ t ∈ ts, Word t)
    (hs : ss ≠ []) (ht : ts ≠ []) (h : ", ".intercalate ss = ", ".intercalate ts) : ss = ts := by
  induction ss generalizing ts with
  | nil => exact absurd rfl hs
  | cons s ss ih =>
    obtain ⟨hsword, hssword⟩ := List.forall_mem_cons.mp hss
    cases ts with
    | nil => exact absurd rfl ht
    | cons t ts =>
      obtain ⟨htword, htsword⟩ := List.forall_mem_cons.mp hts
      cases ss with
      | nil =>
        cases ts with
        | nil =>
          rw [String.intercalate_singleton, String.intercalate_singleton] at h
          rw [h]
        | cons u ts =>
          rw [String.intercalate_singleton] at h
          exact absurd h.symm (intercalate_ne_word hsword)
      | cons v ss =>
        cases ts with
        | nil =>
          rw [String.intercalate_singleton] at h
          exact absurd h (intercalate_ne_word htword)
        | cons u ts =>
          have hlists := congrArg String.toList h
          rw [toList_intercalate_cons_cons, toList_intercalate_cons_cons] at hlists
          obtain ⟨hfirst, hrest⟩ := hsword.append_cons_inj htword rfl hlists
          have htails : v :: ss = u :: ts :=
            ih hssword htsword (List.cons_ne_nil v ss) (List.cons_ne_nil u ts)
              (String.toList_inj.mp (List.cons.inj hrest).2)
          rw [hfirst, htails]

/-! ### Decimal numerals -/

theorem decimal_inj {m n : Nat} : decimal m = decimal n ↔ m = n := by
  constructor
  · intro h
    have hdigits : Nat.toDigits 10 m = Nat.toDigits 10 n := by
      rwa [decimal, decimal, String.ofList_inj] at h
    calc
      m = Nat.ofDigitChars 10 (Nat.toDigits 10 m) 0 := Nat.ofDigitChars_ten_toDigits.symm
      _ = Nat.ofDigitChars 10 (Nat.toDigits 10 n) 0 := by rw [hdigits]
      _ = n := Nat.ofDigitChars_ten_toDigits
  · rintro rfl
    rfl

theorem word_decimal (n : Nat) : Word (decimal n) := by
  intro c hc
  rw [decimal, String.toList_ofList] at hc
  have hdigit : c.isDigit = true := Nat.isDigit_of_mem_toDigits (by decide) (by decide) hc
  rw [Char.isAlphanum, hdigit, Bool.or_true]

/-! ### Hexadecimal numerals -/

/-- The digits of hexadecimal numerals, in the order of their values. -/
def hexDigits : List Char :=
  "0123456789ABCDEF".toList

/-- The number that hexadecimal digits denote, whether or not there are zeros in front. -/
def hexNumber (cs : List Char) : Nat :=
  cs.foldl (fun value c => 16 * value + hexDigits.idxOf c) 0

theorem toUpper_digitChar :
    ∀ d < 16, (Nat.digitChar d).toUpper ∈ hexDigits ∧
      hexDigits.idxOf (Nat.digitChar d).toUpper = d := by
  decide

theorem hexNumber_append_singleton (cs : List Char) (c : Char) :
    hexNumber (cs ++ [c]) = 16 * hexNumber cs + hexDigits.idxOf c := by
  rw [hexNumber, List.foldl_append, List.foldl_cons, List.foldl_nil, ← hexNumber]

/-- Upper-case digits denote the number, and there are no others among them. -/
theorem hexNumber_toDigits (n : Nat) :
    (∀ c ∈ (Nat.toDigits 16 n).map Char.toUpper, c ∈ hexDigits) ∧
      hexNumber ((Nat.toDigits 16 n).map Char.toUpper) = n := by
  -- The induction takes off the last digit, as the numeral is made.
  induction n using Nat.strongRecOn with
  | ind n ih =>
    by_cases hlt : n < 16
    · obtain ⟨hmem, hvalue⟩ := toUpper_digitChar n hlt
      rw [Nat.toDigits_of_lt_base hlt, List.map_singleton]
      refine ⟨List.forall_mem_singleton.mpr hmem, ?_⟩
      have hsingle := hexNumber_append_singleton [] (Nat.digitChar n).toUpper
      rw [List.nil_append, hvalue] at hsingle
      rw [hsingle]
      exact Nat.zero_add n
    · obtain ⟨hmem, hvalue⟩ := toUpper_digitChar (n % 16) (Nat.mod_lt n (by decide))
      obtain ⟨hfront, hnumber⟩ := ih (n / 16) (by omega)
      rw [Nat.toDigits_of_base_le (by decide) (by omega), List.map_append, List.map_singleton]
      refine ⟨List.forall_mem_append.mpr ⟨hfront, List.forall_mem_singleton.mpr hmem⟩, ?_⟩
      rw [hexNumber_append_singleton, hnumber, hvalue]
      omega

theorem hexNumber_replicate_append (k : Nat) (cs : List Char) :
    hexNumber (List.replicate k '0' ++ cs) = hexNumber cs := by
  have hzeros : (List.replicate k '0').foldl
      (fun value c => 16 * value + hexDigits.idxOf c) 0 = 0 := by
    induction k with
    | zero => rfl
    | succ k ih => rw [List.replicate_succ, List.foldl_cons]; exact ih
  rw [hexNumber, List.foldl_append, hzeros, ← hexNumber]

theorem hexNumber_hexadecimal (width n : Nat) : hexNumber (hexadecimal width n).toList = n := by
  rw [hexadecimal, String.toList_ofList, hexNumber_replicate_append]
  exact (hexNumber_toDigits n).2

theorem hexadecimal_inj {width m n : Nat} : hexadecimal width m = hexadecimal width n ↔ m = n := by
  constructor
  · intro h
    calc
      m = hexNumber (hexadecimal width m).toList := (hexNumber_hexadecimal width m).symm
      _ = hexNumber (hexadecimal width n).toList := by rw [h]
      _ = n := hexNumber_hexadecimal width n
  · rintro rfl
    rfl

theorem word_hexadecimal (width n : Nat) : Word (hexadecimal width n) := by
  have halphanum : hexDigits.all Char.isAlphanum = true := by decide
  intro c hc
  rw [hexadecimal, String.toList_ofList, List.mem_append] at hc
  rcases hc with hzero | hdigit
  · rw [List.eq_of_mem_replicate hzero]
    rfl
  · exact List.all_eq_true.mp halphanum c ((hexNumber_toDigits n).1 c hdigit)

end Microboard.Text
