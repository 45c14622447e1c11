import Microboard.Proofs.Machine.Steps
import Microboard.Proofs.Panel.Plane

/-!
# Text stays on the panel

A cursor can be moved beyond the edges of the panel, but one character is enough to bring it back:
behind every operation that is no move, the cursor stands on the panel. So does the text, but for a
character right behind a move: `text_stays_inside`.
-/

namespace Microboard.Panel

/-- The operation settles the cursor; only moves do not. -/
def Operation.Settles : Operation → Prop
  | .moveX _ | .moveY _ => False
  | _ => True

/-- The cursor stands within the edges of the panel. -/
def Inside (panel : Panel) : Prop :=
  panel.x < panel.geometry.width ∧ panel.y < panel.geometry.height

/-- The cursor is settled behind operations in a row: by the last of them, or because the panel is
    new and there are none. -/
def Settled (start : Panel) (before : List Operation) : Prop :=
  match before.getLast? with
  | some op => op.Settles
  | none => start = { geometry := start.geometry }

section

variable {panel : Panel}

theorem geometry_perform (panel : Panel) (op : Operation) :
    (panel.perform op).1.geometry = panel.geometry := by
  cases op with
  | print c => exact geometry_print c panel
  | _ => rfl

theorem geometry_performAll (panel : Panel) (ops : List Operation) :
    (panel.performAll ops).geometry = panel.geometry := by
  induction ops generalizing panel with
  | nil => rfl
  | cons op ops ih =>
    have hrest := ih (panel.perform op).1
    rwa [geometry_perform] at hrest

theorem performAll_concat (panel : Panel) (ops : List Operation) (op : Operation) :
    panel.performAll (ops ++ [op]) = ((panel.performAll ops).perform op).1 := by
  rw [performAll, List.foldl_append]
  rfl

/-! ### Back on the panel -/

theorem inside_iff : panel.Inside ↔
    panel.plane.x < panel.geometry.width.toNat ∧ panel.plane.y < panel.geometry.height.toNat := by
  rw [Inside, UInt16.lt_iff_toNat_lt, UInt16.lt_iff_toNat_lt]
  rfl

/-- Behind a character the cursor stands on the panel, wherever it stood before. -/
theorem inside_print (hwidth : 0 < panel.geometry.width)
    (htop : panel.geometry.topLine < panel.geometry.height) (c : UInt8) :
    (panel.print c).1.Inside := by
  have hplane : (panel.print c).1.plane = (panel.plane.perform (.print c)).1 := plane_print c panel
  have hroom : 0 < panel.geometry.width.toNat := UInt16.lt_iff_toNat_lt.mp hwidth
  have hcolumn : panel.plane.column c < panel.geometry.width.toNat := by
    rw [Plane.column]
    split
    · exact hroom
    · rename_i hbreaks
      exact Nat.lt_of_not_le (not_or.mp hbreaks).2
  rw [inside_iff, geometry_print, hplane, Plane.perform_print hwidth]
  split
  · exact ⟨hcolumn, UInt16.lt_iff_toNat_lt.mp htop⟩
  · rename_i hfull
    exact ⟨hcolumn, Nat.lt_of_not_le hfull⟩

theorem inside_home (hwidth : 0 < panel.geometry.width)
    (htop : panel.geometry.topLine < panel.geometry.height) : panel.home.Inside :=
  ⟨hwidth, htop⟩

theorem inside_perform (hwidth : 0 < panel.geometry.width)
    (htop : panel.geometry.topLine < panel.geometry.height) {op : Operation} (h : op.Settles) :
    (panel.perform op).1.Inside := by
  cases op with
  | print c => exact inside_print hwidth htop c
  | clear => exact inside_home hwidth htop
  | home => exact inside_home hwidth htop
  | moveX x => cases h
  | moveY y => cases h

theorem Settled.inside {start : Panel} (hwidth : 0 < start.geometry.width)
    (htop : start.geometry.topLine < start.geometry.height) {before : List Operation}
    (h : Settled start before) : (start.performAll before).Inside := by
  -- Whatever came earlier, the last operation settles the cursor by itself.
  rcases before.eq_nil_or_concat with rfl | ⟨earlier, op, rfl⟩
  · have hnew : start = { geometry := start.geometry } := h
    rw [hnew]
    exact ⟨hwidth, htop⟩
  · rw [Settled, List.concat_eq_append, List.getLast?_append] at h
    rw [List.concat_eq_append, performAll_concat]
    rw [← geometry_performAll start earlier] at hwidth htop
    exact inside_perform hwidth htop h

/-! ### What a character shows -/

/-- What a character does to the row of the cursor, and which events follow its glyph. -/
inductive Turned (panel : Panel) (c : UInt8) (after : Panel) : List Event → Prop
  /-- The row to which it leads is on the panel. -/
  | stays (hrow : panel.plane.row c < panel.geometry.height.toNat)
      (hy : after.y.toNat = panel.plane.row c) : Turned panel c after []
  /-- It leads to the bottom, and the cursor goes back to the top line of the wiped panel. -/
  | wipes (hrow : panel.geometry.height.toNat ≤ panel.plane.row c)
      (hy : after.y = panel.geometry.topLine) : Turned panel c after [.clearScreen]

theorem print_turned (hwidth : 0 < panel.geometry.width) (c : UInt8) :
    ∃ wiped, (panel.print c).2 = .glyph c panel.x panel.y :: wiped ∧
      Turned panel c (panel.print c).1 wiped := by
  have hplane : (panel.print c).1.plane = (panel.plane.perform (.print c)).1 := plane_print c panel
  have hevents := events_print c panel
  rw [Plane.perform_print hwidth] at hplane
  have hfills := Plane.full_wrap_pass (p := panel.plane) hwidth c
  by_cases hfull : panel.plane.geometry.height.toNat ≤ panel.plane.row c
  · rw [if_pos (hfills.mpr hfull)] at hevents
    rw [if_pos hfull] at hplane
    exact ⟨_, hevents, .wipes hfull (UInt16.toNat_inj.mp (congrArg Plane.y hplane))⟩
  · rw [if_neg (mt hfills.mp hfull)] at hevents
    rw [if_neg hfull] at hplane
    exact ⟨_, hevents, .stays (Nat.lt_of_not_le hfull) (congrArg Plane.y hplane)⟩

end

/-- Behind every operation that is no move the cursor stands on the panel. A character is drawn at
    the cursor, which is on the panel if it was settled; and the panel is wiped behind it exactly if
    the cursor goes back to the top line because it has reached the bottom. -/
theorem text_stays_inside {start : Panel} (hwidth : 0 < start.geometry.width)
    (htop : start.geometry.topLine < start.geometry.height) (before : List Operation) :
    let panel := start.performAll before
    (∀ op : Operation, op.Settles → (panel.perform op).1.Inside) ∧
      ∀ c, ∃ wiped, (panel.perform (.print c)).2 = .glyph c panel.x panel.y :: wiped ∧
        Turned panel c (panel.perform (.print c)).1 wiped ∧
        (Settled start before → panel.Inside) := by
  intro panel
  have hgeometry : panel.geometry = start.geometry := geometry_performAll start before
  have hroom : 0 < panel.geometry.width := by rwa [hgeometry]
  have htall : panel.geometry.topLine < panel.geometry.height := by rwa [hgeometry]
  constructor
  · intro op hop
    exact inside_perform hroom htall hop
  · intro c
    obtain ⟨wiped, hevents, hturned⟩ := print_turned hroom c
    exact ⟨wiped, hevents, hturned, fun hsettled => hsettled.inside hwidth htop⟩

/-- From a cursor far off the panel, the first character already brings the text back. -/
theorem text_stays_inside_off_panel :
    let start : Panel := { geometry := {}, x := 500, y := 65535 }
    let before : List Operation := [.moveY 250, .print 65]
    ¬ start.Inside ∧ 0 < start.geometry.width ∧ start.geometry.topLine < start.geometry.height ∧
      Settled start before ∧ (start.performAll before).Inside ∧
      ((start.performAll before).perform (.print 66)).1.Inside ∧
      ((start.performAll before).perform (.print 66)).2 = [.glyph 66 0 20] := by
  intro start before
  have hwidth : 0 < start.geometry.width := by decide
  have htop : start.geometry.topLine < start.geometry.height := by decide
  have hsettled : Settled start before := trivial
  have hoff : ¬ start.Inside := fun h => absurd h.1 (by decide)
  obtain ⟨hsettles, hprint⟩ := text_stays_inside hwidth htop before
  obtain ⟨wiped, hevents, hturned, hinside⟩ := hprint 66
  have hafter : ((start.performAll before).perform (.print 66)).1.Inside :=
    hsettles (.print 66) trivial
  cases hturned with
  | stays => exact ⟨hoff, hwidth, htop, hsettled, hinside hsettled, hafter, hevents⟩
  | wipes hfull => exact absurd hfull (by decide)

end Microboard.Panel
