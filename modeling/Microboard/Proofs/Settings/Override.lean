import Microboard.Proofs.Text.Numeral
import Microboard.Settings.Reading

/-!
# Overriding the steps per tick

An environment value that writes a positive number of 32 bits, with or without blanks around it,
replaces the steps per tick. Every other value counts for nothing: `override_exact`.
-/

namespace Microboard.Settings

open Text (Writes writes_iff numeral?_eq_some_iff)

variable {raw : String} {n : Nat}

theorem override_of_writes (s : Settings) (h : Writes raw n) (hlow : 1 ≤ n)
    (hhigh : n ≤ 4294967295) :
    s.override (some raw) = { s with stepsPerTick := UInt32.ofNat n } := by
  have hsize : n < UInt32.size := Nat.lt_succ_of_le hhigh
  have hread : Text.numeral? UInt32.size (Text.trim raw.toList) = some n :=
    numeral?_eq_some_iff.mpr ⟨writes_iff.mp h, hsize⟩
  have hpositive : n ≠ 0 := Nat.ne_of_gt hlow
  simp only [override, Option.bind_some, hread, if_neg hpositive]

/-- What is read but is not positive is ignored, as is what cannot be read. -/
theorem override_of_not_writes (s : Settings)
    (h : ∀ n, Writes raw n → ¬ (1 ≤ n ∧ n ≤ 4294967295)) : s.override (some raw) = s := by
  cases hread : Text.numeral? UInt32.size (Text.trim raw.toList) with
  | none => simp only [override, Option.bind_some, hread]
  | some n =>
    obtain ⟨hnumeral, hsize⟩ := numeral?_eq_some_iff.mp hread
    have hzero : n = 0 := by
      have hout := h n (writes_iff.mpr hnumeral)
      have hbound : n ≤ 4294967295 := Nat.le_of_lt_succ hsize
      omega
    simp only [override, Option.bind_some, hread, if_pos hzero]

/-- A value that consists of a numeral, with at most one plus sign and any number of zeros in front,
    and of blanks around it sets the steps per tick to its number if that is positive and has 32
    bits. Every other value leaves the settings as they are. No value changes any other setting. -/
theorem override_exact (s : Settings) (raw : String) :
    (∀ n, Writes raw n → 1 ≤ n → n ≤ 4294967295 →
        (s.override (some raw)).stepsPerTick.toNat = n) ∧
      ((∀ n, Writes raw n → ¬ (1 ≤ n ∧ n ≤ 4294967295)) → s.override (some raw) = s) ∧
      (s.override (some raw)).adcDefault = s.adcDefault ∧
      (s.override (some raw)).screen = s.screen := by
  refine ⟨?_, override_of_not_writes s, ?_⟩
  · intro n h hlow hhigh
    rw [override_of_writes s h hlow hhigh]
    exact UInt32.toNat_ofNat_of_lt' (Nat.lt_succ_of_le hhigh)
  · by_cases h : ∃ n, Writes raw n ∧ 1 ≤ n ∧ n ≤ 4294967295
    · obtain ⟨n, hwrites, hlow, hhigh⟩ := h
      rw [override_of_writes s hwrites hlow hhigh]
      exact ⟨rfl, rfl⟩
    · have hnot : ∀ n, Writes raw n → ¬ (1 ≤ n ∧ n ≤ 4294967295) := by
        intro n hwrites hbounds
        exact h ⟨n, hwrites, hbounds⟩
      rw [override_of_not_writes s hnot]
      exact ⟨rfl, rfl⟩

/-- Zeros in front and an em space do no harm; a number of 33 bits is ignored. -/
theorem override_exact_padded :
    (override (some "\u2003+0042\n") {}).stepsPerTick.toNat = 42 ∧
      override (some "4294967296") {} = {} := by
  have hread : Text.numeral? UInt32.size (Text.trim "\u2003+0042\n".toList) = some 42 := by
    decide +kernel
  have hlarge : Text.numeral? UInt32.size (Text.trim "4294967296".toList) = none := by
    decide +kernel
  have hwrites : Writes "\u2003+0042\n" 42 := writes_iff.mpr (numeral?_eq_some_iff.mp hread).1
  have hnot : ∀ n, Writes "4294967296" n → ¬ (1 ≤ n ∧ n ≤ 4294967295) := by
    intro n h hbounds
    have hsome := numeral?_eq_some_iff.mpr ⟨writes_iff.mp h, Nat.lt_succ_of_le hbounds.2⟩
    cases hlarge.symm.trans hsome
  exact ⟨(override_exact {} _).1 42 hwrites (by decide) (by decide), (override_exact {} _).2.1 hnot⟩

end Microboard.Settings
