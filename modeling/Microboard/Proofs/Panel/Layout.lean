import Mathlib.Algebra.Order.Floor.Div
import Mathlib.Data.Nat.ModEq
import Microboard.Proofs.Panel.Plane

/-!
# Text from the top

Text without line feeds fills the lines of a panel one by one, and the panel time after time. Where
a character is drawn follows from its number by division: `layout_closed_form`.
-/

namespace Microboard

open Panel (Operation)

namespace Geometry

/-- How many characters a line takes. -/
def columns (g : Geometry) : Nat :=
  g.width.toNat ⌈/⌉ g.glyphAdvance.toNat

/-- How many lines a panel takes from its top line on. -/
def lines (g : Geometry) : Nat :=
  (g.height.toNat - g.topLine.toNat) ⌈/⌉ g.lineHeight.toNat

/-- The plane in front of a character of a text that begins at the top. -/
def planeAt (g : Geometry) (k : Nat) : Plane where
  geometry := g
  x := k % g.columns * g.glyphAdvance.toNat
  y := g.topLine.toNat + k / g.columns % g.lines * g.lineHeight.toNat

/-- The panel has room for text, and text has a size. -/
structure HoldsText (g : Geometry) : Prop where
  width : 0 < g.width
  lineHeight : 0 < g.lineHeight
  glyphAdvance : 0 < g.glyphAdvance
  topLine : g.topLine < g.height

/-! ### Counting on -/

theorem dvd_succ_iff {n : Nat} (hn : 0 < n) (k : Nat) : n ∣ k + 1 ↔ n ≤ k % n + 1 := by
  have hlt := Nat.mod_lt k hn
  have hsplit : k + 1 = n * (k / n) + (k % n + 1) := by rw [← Nat.add_assoc, Nat.div_add_mod]
  rw [hsplit, Nat.dvd_add_right (Nat.dvd_mul_right n _)]
  constructor
  · exact Nat.le_of_dvd (Nat.succ_pos _)
  · intro hle
    exact Dvd.intro 1 (by omega)

theorem succ_mod_of_not_dvd {n k : Nat} (hn : 0 < n) (h : ¬ n ∣ k + 1) :
    (k + 1) % n = k % n + 1 := by
  have hroom : k % n + 1 < n := Nat.lt_of_not_le (mt (dvd_succ_iff hn k).mpr h)
  have hone : 1 % n = 1 := Nat.mod_eq_of_lt (by omega)
  have hsum := Nat.add_mod_of_add_mod_lt (a := k) (b := 1) (c := n) (by rwa [hone])
  rwa [hone] at hsum

/-! ### Edges -/

section

variable {g : Geometry} (h : g.HoldsText)
include h

theorem columns_le_iff (i : Nat) :
    g.columns ≤ i ↔ g.width.toNat ≤ i * g.glyphAdvance.toNat := by
  rw [columns, ceilDiv_le_iff_le_mul (UInt16.lt_iff_toNat_lt.mp h.glyphAdvance), Nat.mul_comm]

theorem lines_le_iff (j : Nat) :
    g.lines ≤ j ↔ g.height.toNat ≤ g.topLine.toNat + j * g.lineHeight.toNat := by
  rw [lines, ceilDiv_le_iff_le_mul (UInt16.lt_iff_toNat_lt.mp h.lineHeight), Nat.mul_comm,
    Nat.sub_le_iff_le_add']

theorem columns_pos : 0 < g.columns := by
  have hwidth : 0 < g.width.toNat := UInt16.lt_iff_toNat_lt.mp h.width
  rw [← Nat.not_le, columns_le_iff h]
  omega

theorem lines_pos : 0 < g.lines := by
  have htop := UInt16.lt_iff_toNat_lt.mp h.topLine
  rw [← Nat.not_le, lines_le_iff h]
  omega

/-! ### One character -/

variable {c : UInt8} (hc : c ≠ Panel.lineFeed)
include hc

theorem breaks_planeAt (k : Nat) : (g.planeAt k).Breaks c ↔ g.columns ∣ k + 1 := by
  rw [dvd_succ_iff (columns_pos h), columns_le_iff h, Nat.succ_mul, Plane.Breaks,
    or_iff_right hc]
  rfl

theorem column_planeAt (k : Nat) : (g.planeAt k).column c = (g.planeAt (k + 1)).x := by
  have hbreaks := breaks_planeAt h hc k
  by_cases hend : g.columns ∣ k + 1
  · rw [Plane.column, if_pos (hbreaks.mpr hend), planeAt, Nat.mod_eq_zero_of_dvd hend,
      Nat.zero_mul]
  · rw [Plane.column, if_neg (mt hbreaks.mp hend), planeAt, planeAt,
      succ_mod_of_not_dvd (columns_pos h) hend, Nat.succ_mul]

section

variable {k : Nat}

theorem row_planeAt_of_dvd (hend : g.columns ∣ k + 1) :
    (g.planeAt k).row c =
      g.topLine.toNat + (k / g.columns % g.lines + 1) * g.lineHeight.toNat := by
  rw [Plane.row, if_pos ((breaks_planeAt h hc k).mpr hend), Nat.succ_mul, ← Nat.add_assoc]
  rfl

theorem row_planeAt_of_not_dvd (hend : ¬ g.columns ∣ k + 1) :
    (g.planeAt k).row c = (g.planeAt k).y := by
  rw [Plane.row, if_neg (mt (breaks_planeAt h hc k).mp hend)]

theorem full_planeAt :
    g.height.toNat ≤ (g.planeAt k).row c ↔ g.columns * g.lines ∣ k + 1 := by
  have hlines := lines_pos h
  by_cases hend : g.columns ∣ k + 1
  · rw [row_planeAt_of_dvd h hc hend, ← lines_le_iff h, ← dvd_succ_iff hlines,
      ← Nat.succ_div_of_dvd hend, Nat.dvd_div_iff_mul_dvd hend]
  · have hline : ¬ g.lines ≤ k / g.columns % g.lines := Nat.not_le_of_lt (Nat.mod_lt _ hlines)
    rw [row_planeAt_of_not_dvd h hc hend, planeAt, ← lines_le_iff h]
    apply iff_of_false hline
    intro hpage
    exact hend (dvd_of_mul_right_dvd hpage)

theorem row_planeAt (hpage : ¬ g.columns * g.lines ∣ k + 1) :
    (g.planeAt k).row c = (g.planeAt (k + 1)).y := by
  by_cases hend : g.columns ∣ k + 1
  · have hmore : ¬ g.lines ∣ k / g.columns + 1 := by
      rwa [← Nat.succ_div_of_dvd hend, Nat.dvd_div_iff_mul_dvd hend]
    rw [row_planeAt_of_dvd h hc hend, planeAt, Nat.succ_div_of_dvd hend,
      succ_mod_of_not_dvd (lines_pos h) hmore]
  · rw [row_planeAt_of_not_dvd h hc hend, planeAt, planeAt, Nat.succ_div_of_not_dvd hend]

end

end

/-- Behind a full panel, the text goes on at its top. -/
theorem top_planeAt {g : Geometry} {k : Nat} (hpage : g.columns * g.lines ∣ k + 1) :
    (g.planeAt (k + 1)).y = g.topLine.toNat := by
  have hend : g.columns ∣ k + 1 := dvd_of_mul_right_dvd hpage
  have hlines : g.lines ∣ (k + 1) / g.columns := (Nat.dvd_div_iff_mul_dvd hend).mpr hpage
  simp only [planeAt, Nat.mod_eq_zero_of_dvd hlines, Nat.zero_mul, Nat.add_zero]

/-- What the character with a number shows, in a text that begins at the top. -/
def shown (g : Geometry) (k : Nat) (character : UInt8) : List Mark :=
  .glyph character (g.planeAt k).x (g.planeAt k).y ::
    if g.columns * g.lines ∣ k + 1 then [.wiped] else []

theorem perform_planeAt {g : Geometry} (h : g.HoldsText) {c : UInt8} (hc : c ≠ Panel.lineFeed)
    (k : Nat) : (g.planeAt k).perform (.print c) = (g.planeAt (k + 1), g.shown k c) := by
  have hfull : (g.planeAt k).geometry.height.toNat ≤ (g.planeAt k).row c ↔
    g.columns * g.lines ∣ k + 1 := full_planeAt h hc
  have hcolumn := column_planeAt h hc k
  rw [Plane.perform_print h.width, shown]
  by_cases hpage : g.columns * g.lines ∣ k + 1
  · have htop : (g.planeAt (k + 1)).y = (g.planeAt k).geometry.topLine.toNat :=
      top_planeAt hpage
    rw [if_pos (hfull.mpr hpage), if_pos hpage, hcolumn, ← htop]
    rfl
  · have hrow := row_planeAt h hc hpage
    rw [if_neg (mt hfull.mp hpage), if_neg hpage, hcolumn, hrow]
    rfl

end Geometry

namespace Panel

theorem marks_text {g : Geometry} (h : g.HoldsText) {text : List UInt8} (htext : lineFeed ∉ text) :
    ∀ (panel : Panel) (k : Nat), panel.plane = g.planeAt k →
      (panel.history (text.map .print)).map (fun entry => entry.2.map Event.mark?) =
        text.mapIdx fun i c => (g.shown (k + i) c).map some := by
  -- By induction on the text, for the panel in front of any number of earlier characters.
  induction text with
  | nil =>
    intro panel k _
    rfl
  | cons c text ih =>
    intro panel k hpanel
    obtain ⟨hc, hrest⟩ := not_or.mp (mt List.mem_cons.mpr htext)
    have hprint := perform_plane panel (.print c)
    rw [hpanel, Geometry.perform_planeAt h (Ne.symm hc)] at hprint
    obtain ⟨hplane, hmarks⟩ := Prod.mk.inj hprint
    rw [List.map_cons, history, List.map_cons, hmarks, ih hrest _ (k + 1) hplane,
      List.mapIdx_cons]
    simp only [Nat.add_zero, Nat.add_assoc, Nat.add_comm 1]

/-- The characters of a text without line feeds, printed from the top of a panel on, are drawn in
    lines of `columns` characters each, and the panel is wiped behind every `lines` of them. -/
theorem layout_closed_form {g : Geometry} (h : g.HoldsText) {text : List UInt8}
    (htext : lineFeed ∉ text) :
    (history { geometry := g } (text.map .print)).map (fun entry => entry.2.map Event.mark?) =
      text.mapIdx fun k c =>
        some (.glyph c (k % g.columns * g.glyphAdvance.toNat)
            (g.topLine.toNat + k / g.columns % g.lines * g.lineHeight.toNat)) ::
          if g.columns * g.lines ∣ k + 1 then [some .wiped] else [] := by
  have hstart : plane { geometry := g } = g.planeAt 0 := by
    simp [plane, Geometry.planeAt]
  rw [marks_text h htext _ 0 hstart]
  apply congrArg (text.mapIdx ·)
  funext k c
  rw [Nat.zero_add, Geometry.shown]
  split
  · rfl
  · rfl

/-- Two columns and two lines at the end of all coordinates, where every sum beyond the edge is cut
    off. -/
theorem layout_closed_form_cut_off :
    let g : Geometry :=
      { width := 65535, height := 65535, lineHeight := 400, glyphAdvance := 40000,
        topLine := 65000 }
    let text : List UInt8 := [72, 101, 108, 108, 111]
    g.HoldsText ∧ lineFeed ∉ text ∧
      (history { geometry := g } (text.map .print)).map (fun entry => entry.2.map Event.mark?) =
        [[some (.glyph 72 0 65000)], [some (.glyph 101 40000 65000)],
          [some (.glyph 108 0 65400)], [some (.glyph 108 40000 65400), some .wiped],
          [some (.glyph 111 0 65000)]] := by
  intro g text
  have hg : g.HoldsText := ⟨by decide, by decide, by decide, by decide⟩
  have htext : lineFeed ∉ text := by decide
  exact ⟨hg, htext, (layout_closed_form hg htext).trans (by decide)⟩

end Panel

end Microboard
