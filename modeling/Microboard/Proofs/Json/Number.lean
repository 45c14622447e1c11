import Mathlib.Data.List.TakeWhile
import Mathlib.Data.Option.Basic
import Microboard.Json.Integer

/-!
# Integers as number literals

The literal that is written for an integer is read back as that literal, and the literal denotes the
integer: `ofChars?_lexeme`, `toInt?_ofInt`. An integer of at most 64 bits is never too large for
floating point: `overflows_ofInt`. A field with an integer type takes the integers of its type and
nothing else: `uint16?_eq_some_iff`, `uint32?_eq_some_iff`, `int64?_eq_some_iff`.
-/

namespace Microboard.Json

namespace Number

/-! ### Decimal digits -/

theorem isDigit_of_mem_digits {n : Nat} {c : Char} (h : c ∈ Nat.toDigits 10 n) :
    c.isDigit = true :=
  Nat.isDigit_of_mem_toDigits (by decide) (by decide) h

theorem digitsValue_toDigits (n : Nat) : digitsValue (Nat.toDigits 10 n) = n := by
  have hvalue := Nat.ofDigitChars_ten_toDigits (n := n)
  rwa [Nat.ofDigitChars_eq_foldl] at hvalue

theorem head_toDigits {n : Nat} (h : n ≠ 0) {d : Char} {ds : List Char}
    (hdigits : Nat.toDigits 10 n = d :: ds) : d ≠ '0' := by
  induction n using Nat.strongRecOn generalizing d ds with
  | ind n ih =>
    by_cases hlt : n < 10
    · rw [Nat.toDigits_of_lt_base hlt, List.cons.injEq] at hdigits
      rw [← hdigits.1]
      intro hzero
      exact h (Nat.digitChar_eq_zero.mp hzero)
    · -- The first digit is that of the number without its last one.
      rw [Nat.toDigits_of_base_le (by decide) (by omega)] at hdigits
      rcases hfront : Nat.toDigits 10 (n / 10) with _ | ⟨e, es⟩
      · exact absurd hfront Nat.toDigits_ne_nil
      · rw [hfront, List.cons_append, List.cons.injEq] at hdigits
        rw [← hdigits.1]
        exact ih (n / 10) (by omega) (by omega) hfront

theorem isWhole_toDigits (n : Nat) : isWhole (Nat.toDigits 10 n) = true := by
  by_cases h : n = 0
  · subst h
    rfl
  · rcases hdigits : Nat.toDigits 10 n with _ | ⟨d, ds⟩
    · exact absurd hdigits Nat.toDigits_ne_nil
    · have hhead := head_toDigits h hdigits
      unfold isWhole
      split
      · rename_i hnil
        cases hnil
      · rfl
      · rename_i hcons
        cases hcons
        exact decide_eq_true hhead

/-! ### Writing and reading -/

theorem lexeme_ofInt (i : Int) :
    (ofInt i).lexeme = (if i < 0 then ['-'] else []) ++ Nat.toDigits 10 i.natAbs := by
  simp [lexeme, ofInt]

/-- Digits do not begin with a sign, so the sign that is read is the one that was written. -/
theorem ofChars?_lexeme (i : Int) : ofChars? (ofInt i).lexeme = some (ofInt i) := by
  have hall : ∀ c ∈ Nat.toDigits 10 i.natAbs, c.isDigit = true :=
    fun _ => isDigit_of_mem_digits
  have htake := List.takeWhile_eq_self_iff.mpr hall
  have hdrop := List.dropWhile_eq_nil_iff.mpr hall
  have hwhole := isWhole_toDigits i.natAbs
  rw [lexeme_ofInt, ofInt]
  by_cases h : i < 0
  · simp only [ofChars?, if_pos h, decide_eq_true h, List.singleton_append, htake, hdrop, hwhole]
    rfl
  · rw [if_neg h, List.nil_append, decide_eq_false h]
    rcases hdigits : Nat.toDigits 10 i.natAbs with _ | ⟨d, ds⟩
    · exact absurd hdigits Nat.toDigits_ne_nil
    · have hfirst : d ∈ Nat.toDigits 10 i.natAbs := by
        rw [hdigits]
        exact List.mem_cons_self
      have hsign : ∀ rest, d :: ds = '-' :: rest → False := by
        intro rest heq
        rw [(List.cons.inj heq).1] at hfirst
        exact absurd (isDigit_of_mem_digits hfirst) (by decide)
      rw [hdigits] at htake hdrop hwhole
      simp only [ofChars?, htake, hdrop, hwhole]
      rfl

theorem toInt?_ofInt (i : Int) : (ofInt i).toInt? = some i := by
  simp only [toInt?, ofInt, digitsValue_toDigits]
  by_cases h : i < 0
  · have hpos : (i.natAbs : Int) ≠ 0 := by omega
    simp only [List.isEmpty_nil, Option.isNone_none, Bool.and_self, if_true, decide_eq_true h,
      if_neg hpos, Option.some.injEq]
    omega
  · simp only [List.isEmpty_nil, Option.isNone_none, Bool.and_self, if_true, decide_eq_false h,
      Bool.false_eq_true, if_false, Option.some.injEq]
    omega

/-! ### Within floating point -/

theorem digitsFrom_mono (ds : List Char) (value : Nat) :
    value ≤ ds.foldl (fun value d => 10 * value + digitValue d) value := by
  induction ds generalizing value with
  | nil => exact Nat.le_refl value
  | cons d ds ih =>
    have h := ih (10 * value + digitValue d)
    rw [List.foldl_cons]
    omega

/-- Digits of a number below 64 bits all go into the significand. -/
theorem significand_of_lt (ds : List Char) (value : Nat)
    (h : ds.foldl (fun value d => 10 * value + digitValue d) value < UInt64.size) :
    significand value ds = (ds.foldl (fun value d => 10 * value + digitValue d) value, 0) := by
  induction ds generalizing value with
  | nil => rfl
  | cons d ds ih =>
    rw [List.foldl_cons] at h ⊢
    have hnext : 10 * value + digitValue d < UInt64.size :=
      Nat.lt_of_le_of_lt (digitsFrom_mono ds _) h
    have htaken : significand value (d :: ds) = significand (10 * value + digitValue d) ds :=
      if_pos hnext
    rw [htaken]
    exact ih _ h

theorem roundedTo53Bits_le (n : Nat) : roundedTo53Bits n ≤ 2 * n := by
  unfold roundedTo53Bits
  split
  · omega
  · rename_i hlarge
    have hunit : 1 <<< (n.log2 - 52) ≤ n := by
      rw [Nat.one_shiftLeft]
      have hpos : n ≠ 0 := by
        intro hzero
        rw [hzero] at hlarge
        exact hlarge (by decide)
      have hlog := Nat.log2_self_le hpos
      have hpow : 2 ^ (n.log2 - 52) ≤ 2 ^ n.log2 :=
        Nat.pow_le_pow_right (by decide) (Nat.sub_le _ _)
      exact Nat.le_trans hpow hlog
    have hquotient := Nat.div_mul_le_self n (1 <<< (n.log2 - 52))
    simp only
    split
    · rw [Nat.add_mul, Nat.one_mul]
      omega
    · omega

theorem overflows_ofInt {i : Int} (h : i.natAbs < UInt64.size) : (ofInt i).overflows = false := by
  have hvalue := digitsValue_toDigits i.natAbs
  unfold digitsValue at hvalue
  have hsignificand : significand 0 (Nat.toDigits 10 i.natAbs) = (i.natAbs, 0) := by
    rw [significand_of_lt _ 0 (by rw [hvalue]; exact h), hvalue]
  have hrounded := roundedTo53Bits_le i.natAbs
  have hbound : 2 ^ 65 < infinityThreshold := by decide +kernel
  have hone : roundedTo53Bits (Nat.pow 10 0) = 1 := by decide
  have hbelow : roundedTo53Bits i.natAbs * roundedTo53Bits (Nat.pow 10 0) < infinityThreshold := by
    rw [hone]
    have hsize : UInt64.size = 2 ^ 64 := rfl
    omega
  simp only [overflows, ofInt, List.append_nil, hsignificand]
  rw [Bool.and_eq_false_iff, Bool.or_eq_false_iff]
  exact Or.inr ⟨rfl, decide_eq_false (Nat.not_le.mpr hbelow)⟩

/-! ### What numbers are made of -/

/-- A character of a number: a digit, a sign, a point or the mark of an exponent. -/
def Numeric (c : Char) : Prop :=
  c.isDigit = true ∨ c ∈ ['-', '+', '.', 'e', 'E']

theorem numeric_of_all {digits : List Char} (h : digits.all Char.isDigit = true) :
    ∀ c ∈ digits, Numeric c :=
  fun c hc => Or.inl (List.all_eq_true.mp h c hc)

theorem numeric_of_exponentOf? {cs : List Char} {e : Option Int} (h : exponentOf? cs = some e) :
    ∀ c ∈ cs, Numeric c := by
  cases cs with
  | nil => exact List.forall_mem_nil _
  | cons mark rest =>
    simp only [exponentOf?] at h
    split at h
    · rename_i hmark
      have hnumeric : Numeric mark := by
        simp only [Bool.or_eq_true, decide_eq_true_eq] at hmark
        rcases hmark with rfl | rfl
        · exact Or.inr (by decide)
        · exact Or.inr (by decide)
      refine List.forall_mem_cons.mpr ⟨hnumeric, ?_⟩
      have hdigits : ∀ (digits : List Char) (value : Option (Option Int)),
          (if (digits.isEmpty || !digits.all Char.isDigit) = true then none else value) = some e →
          ∀ c ∈ digits, Numeric c := by
        intro digits value hvalue
        split at hvalue
        · cases hvalue
        · rename_i hgood
          simp only [Bool.or_eq_true, Bool.not_eq_true', not_or, Bool.not_eq_false] at hgood
          exact numeric_of_all hgood.2
      split at h
      · exact List.forall_mem_cons.mpr ⟨Or.inr (by decide), hdigits _ _ h⟩
      · exact List.forall_mem_cons.mpr ⟨Or.inr (by decide), hdigits _ _ h⟩
      · exact hdigits _ _ h
    · cases h

theorem numeric_of_fractionOf? {cs fraction rest : List Char}
    (h : fractionOf? cs = some (fraction, rest)) (hrest : ∀ c ∈ rest, Numeric c) :
    ∀ c ∈ cs, Numeric c := by
  unfold fractionOf? at h
  split at h
  · rename_i behind
    simp only at h
    split at h
    · cases h
    · cases h
      refine List.forall_mem_cons.mpr ⟨Or.inr (by decide), ?_⟩
      rw [← List.takeWhile_append_dropWhile (p := Char.isDigit) (l := behind)]
      exact List.forall_mem_append.mpr ⟨numeric_of_all List.all_takeWhile, hrest⟩
  · cases h
    exact hrest

/-- A number is not empty, and made of the characters of numbers. -/
theorem numeric_of_ofChars? {cs : List Char} {n : Number} (h : ofChars? cs = some n) :
    cs ≠ [] ∧ ∀ c ∈ cs, Numeric c := by
  have hunsigned : ∀ rest : List Char, isWhole (rest.takeWhile Char.isDigit) = true →
      ∀ fraction behind e, fractionOf? (rest.dropWhile Char.isDigit) = some (fraction, behind) →
      exponentOf? behind = some e → rest ≠ [] ∧ ∀ c ∈ rest, Numeric c := by
    intro rest hwhole fraction behind e hfraction hexponent
    constructor
    · rintro rfl
      cases hwhole
    · rw [← List.takeWhile_append_dropWhile (p := Char.isDigit) (l := rest)]
      exact List.forall_mem_append.mpr ⟨numeric_of_all List.all_takeWhile,
        numeric_of_fractionOf? hfraction (numeric_of_exponentOf? hexponent)⟩
  unfold ofChars? at h
  split at h
  rename_i negative rest hsign
  obtain ⟨_, hguard, hbound⟩ := Option.bind_eq_some_iff.mp h
  obtain ⟨⟨fraction, behind⟩, hfraction, hlast⟩ := Option.bind_eq_some_iff.mp hbound
  obtain ⟨e, hexponent, -⟩ := Option.bind_eq_some_iff.mp hlast
  have hwhole : isWhole (rest.takeWhile Char.isDigit) = true := by
    by_contra hnot
    simp [guard, hnot] at hguard
  have hrest := hunsigned rest hwhole fraction behind e hfraction hexponent
  split at hsign
  · cases hsign
    exact ⟨List.cons_ne_nil _ _, List.forall_mem_cons.mpr ⟨Or.inr (by decide), hrest.2⟩⟩
  · cases hsign
    exact hrest

end Number

/-! ### Values of integers -/

theorem int64_bounds (value : Int64) :
    Int64.minValue.toInt ≤ value.toInt ∧ value.toInt ≤ Int64.maxValue.toInt :=
  ⟨Int64.minValue_le_toInt value, Int64.toInt_le value⟩

theorem int64?_int64 (value : Int64) : (int64 value).int64? = some value := by
  have hbounds := int64_bounds value
  simp only [int64, int64?, intWithin?, int?, int, Number.toInt?_ofInt, Option.filter_some,
    decide_eq_true hbounds, if_true, Option.map_some, Int64.ofInt_toInt]

/-! ### Integers of a type -/

theorem int?_int (i : Int) : (int i).int? = some i :=
  Number.toInt?_ofInt i

theorem intWithin?_eq_some_iff {low high : Int} {v : Json} {i : Int} :
    v.intWithin? low high = some i ↔ v.int? = some i ∧ low ≤ i ∧ i ≤ high := by
  rw [intWithin?, Option.filter_eq_some_iff, decide_eq_true_iff]

/-- A value is taken as an element of a type just if it is the integer of that element, as long as
    the type has all the integers between two bounds and no others. -/
theorem map_intWithin?_eq_some_iff {α : Type} (toInt : α → Int) {low high : Int} {make : Int → α}
    (hmake : ∀ i, low ≤ i → i ≤ high → toInt (make i) = i) (htoInt : ∀ a, make (toInt a) = a)
    (hbounds : ∀ a, low ≤ toInt a ∧ toInt a ≤ high) {v : Json} {a : α} :
    (v.intWithin? low high).map make = some a ↔ v.int? = some (toInt a) := by
  rw [Option.map_eq_some_iff]
  constructor
  · rintro ⟨i, hwithin, rfl⟩
    obtain ⟨hint, hlow, hhigh⟩ := intWithin?_eq_some_iff.mp hwithin
    rw [hint, hmake i hlow hhigh]
  · intro hint
    exact ⟨toInt a, intWithin?_eq_some_iff.mpr ⟨hint, hbounds a⟩, htoInt a⟩

theorem uint16?_eq_some_iff {v : Json} {n : UInt16} :
    v.uint16? = some n ↔ v.int? = some (n.toNat : Int) := by
  apply map_intWithin?_eq_some_iff fun n : UInt16 => (n.toNat : Int)
  · intro i hlow hhigh
    rw [UInt16.toNat_ofNat_of_lt' (by rw [UInt16.size]; omega)]
    omega
  · intro n
    rw [Int.toNat_natCast, UInt16.ofNat_toNat]
  · intro n
    have hlt := n.toNat_lt
    omega

theorem uint32?_eq_some_iff {v : Json} {n : UInt32} :
    v.uint32? = some n ↔ v.int? = some (n.toNat : Int) := by
  apply map_intWithin?_eq_some_iff fun n : UInt32 => (n.toNat : Int)
  · intro i hlow hhigh
    rw [UInt32.toNat_ofNat_of_lt' (by rw [UInt32.size]; omega)]
    omega
  · intro n
    rw [Int.toNat_natCast, UInt32.ofNat_toNat]
  · intro n
    have hlt := n.toNat_lt
    omega

theorem int64?_eq_some_iff {v : Json} {n : Int64} :
    v.int64? = some n ↔ v.int? = some n.toInt := by
  apply map_intWithin?_eq_some_iff Int64.toInt
  · intro i hlow hhigh
    have hmin : Int64.minValue.toInt = -2 ^ 63 := by decide
    have hmax : Int64.maxValue.toInt = 2 ^ 63 - 1 := by decide
    exact Int64.toInt_ofInt_of_le (by omega) (by omega)
  · exact Int64.ofInt_toInt
  · exact int64_bounds

end Microboard.Json
