import Microboard.Panel

/-!
# Panels without a largest coordinate

A `Plane` is a panel whose coordinates are natural numbers, so that sums on it are never cut off. A
sum of coordinates that is cut off on a panel has reached the edge of the panel all the same, and
the edge is looked at before anything shows: no history tells a panel from a plane,
`Panel.saturation_unobservable`.
-/

namespace Microboard

namespace Panel

/-! ### What is done to a panel -/

inductive Operation where
  | print (character : UInt8)
  | clear
  | home
  | moveX (x : UInt8)
  | moveY (y : UInt8)
deriving DecidableEq, Repr

/-- The panel after an operation, and the events that it gives. -/
def perform (panel : Panel) : Operation → Panel × List Event
  | .print character => panel.print character
  | .clear => panel.clear
  | .home => (panel.home, [])
  | .moveX x => panel.moveX x
  | .moveY y => panel.moveY y

def performAll (panel : Panel) (ops : List Operation) : Panel :=
  ops.foldl (fun panel op => (panel.perform op).1) panel

def history (panel : Panel) : List Operation → List (Panel × List Event)
  | [] => []
  | op :: ops => panel.perform op :: (panel.perform op).1.history ops

end Panel

/-! ### Planes -/

/-- What an event shows on a panel, with natural numbers as coordinates. -/
inductive Mark where
  | wiped
  | glyph (character : UInt8) (x y : Nat)
  | cursor (x y : Nat)
deriving DecidableEq, Repr

/-- The mark of an event of the panel's text. -/
def Event.mark? : Event → Option Mark
  | .clearScreen => some .wiped
  | .glyph character x y => some (.glyph character x.toNat y.toNat)
  | .cursor x y => some (.cursor x.toNat y.toNat)
  | .pixel .. | .serial _ | .spi _ => none

/-- A panel whose cursor has natural numbers as coordinates. -/
structure Plane where
  geometry : Geometry
  x : Nat
  y : Nat
deriving DecidableEq, Repr

namespace Plane

open Panel (Operation)

def home (p : Plane) : Plane :=
  { p with x := 0, y := p.geometry.topLine.toNat }

def nextLine (p : Plane) : Plane :=
  { p with x := 0, y := p.y + p.geometry.lineHeight.toNat }

def pass (character : UInt8) (p : Plane) : Plane :=
  if character = Panel.lineFeed then p.nextLine
  else { p with x := p.x + p.geometry.glyphAdvance.toNat }

def wrap (p : Plane) : Plane :=
  if p.geometry.width.toNat ≤ p.x then p.nextLine else p

def Full (p : Plane) : Prop :=
  p.geometry.height.toNat ≤ p.y

instance (p : Plane) : Decidable p.Full :=
  inferInstanceAs (Decidable (_ ≤ _))

def turn (p : Plane) : Plane × List Mark :=
  if p.Full then ({ p with y := p.geometry.topLine.toNat }, [.wiped]) else (p, [])

/-- What is done to a panel, done to a plane. -/
def perform (p : Plane) : Operation → Plane × List Mark
  | .print character =>
    let (after, marks) := (p.pass character).wrap.turn
    (after, .glyph character p.x p.y :: marks)
  | .clear => (p.home, [.wiped])
  | .home => (p.home, [])
  | .moveX x => ({ p with x := x.toNat }, [.cursor x.toNat p.y])
  | .moveY y => ({ p with y := y.toNat }, [.cursor p.x y.toNat])

def history (p : Plane) : List Operation → List (Plane × List Mark)
  | [] => []
  | op :: ops => p.perform op :: (p.perform op).1.history ops

/-! ### Lines -/

/-- The character ends the line, as a line feed or at the right edge. -/
def Breaks (p : Plane) (character : UInt8) : Prop :=
  character = Panel.lineFeed ∨ p.geometry.width.toNat ≤ p.x + p.geometry.glyphAdvance.toNat

instance (p : Plane) (character : UInt8) : Decidable (p.Breaks character) :=
  inferInstanceAs (Decidable (_ ∨ _))

def column (p : Plane) (character : UInt8) : Nat :=
  if p.Breaks character then 0 else p.x + p.geometry.glyphAdvance.toNat

/-- The row to which the character leads if the bottom is left out of account. -/
def row (p : Plane) (character : UInt8) : Nat :=
  if p.Breaks character then p.y + p.geometry.lineHeight.toNat else p.y

/-- If a line has room at all, a character breaks at most one. -/
theorem wrap_pass {p : Plane} (h : 0 < p.geometry.width) (c : UInt8) :
    (p.pass c).wrap = { p with x := p.column c, y := p.row c } := by
  have hroom : ¬ p.geometry.width.toNat ≤ 0 := Nat.not_le_of_lt (UInt16.lt_iff_toNat_lt.mp h)
  unfold pass column row
  by_cases hfeed : c = Panel.lineFeed
  · have hbreaks : p.Breaks c := .inl hfeed
    rw [if_pos hfeed, if_pos hbreaks, if_pos hbreaks]
    exact if_neg hroom
  · rw [if_neg hfeed, wrap]
    by_cases hedge : p.geometry.width.toNat ≤ p.x + p.geometry.glyphAdvance.toNat
    · have hbreaks : p.Breaks c := .inr hedge
      rw [if_pos hedge, if_pos hbreaks, if_pos hbreaks]
      rfl
    · have hbreaks : ¬ p.Breaks c := not_or.mpr ⟨hfeed, hedge⟩
      rw [if_neg hedge, if_neg hbreaks, if_neg hbreaks]

theorem full_wrap_pass {p : Plane} (h : 0 < p.geometry.width) (c : UInt8) :
    (p.pass c).wrap.Full ↔ p.geometry.height.toNat ≤ p.row c := by
  rw [wrap_pass h]
  rfl

theorem perform_print {p : Plane} (h : 0 < p.geometry.width) (c : UInt8) :
    p.perform (.print c) =
      if p.geometry.height.toNat ≤ p.row c then
        ({ p with x := p.column c, y := p.geometry.topLine.toNat }, [.glyph c p.x p.y, .wiped])
      else ({ p with x := p.column c, y := p.row c }, [.glyph c p.x p.y]) := by
  have hfills := full_wrap_pass h c
  rw [perform, turn]
  by_cases hfull : p.geometry.height.toNat ≤ p.row c
  · rw [if_pos hfull, if_pos (hfills.mpr hfull), wrap_pass h]
  · rw [if_neg hfull, if_neg (mt hfills.mp hfull), wrap_pass h]

end Plane

namespace Panel

def plane (panel : Panel) : Plane :=
  ⟨panel.geometry, panel.x.toNat, panel.y.toNat⟩

/-! ### Sums of coordinates -/

theorem toNat_advance (a b : UInt16) : (advance a b).toNat = min (a.toNat + b.toNat) 65535 := by
  have hsize : UInt16.size = 65536 := rfl
  rw [advance, hsize]
  exact UInt16.toNat_ofNat_of_lt' (by omega)

/-- The panel has the cursor of the plane, but for coordinates above the largest. -/
structure Clips (panel : Panel) (p : Plane) : Prop where
  geometry : panel.geometry = p.geometry
  x : panel.x.toNat = min p.x 65535
  y : panel.y.toNat = min p.y 65535

section

variable {panel : Panel} {p : Plane}

theorem clips_plane (panel : Panel) : panel.Clips panel.plane := by
  have hx := panel.x.toNat_lt
  have hy := panel.y.toNat_lt
  exact ⟨rfl, (Nat.min_eq_left (by omega)).symm, (Nat.min_eq_left (by omega)).symm⟩

theorem Clips.nextLine (h : panel.Clips p) : panel.nextLine.Clips p.nextLine := by
  obtain ⟨hgeometry, -, hy⟩ := h
  refine ⟨hgeometry, rfl, ?_⟩
  simp only [Panel.nextLine, Plane.nextLine, toNat_advance, hgeometry, hy]
  omega

theorem Clips.pass (h : panel.Clips p) (c : UInt8) : (panel.pass c).Clips (p.pass c) := by
  unfold Panel.pass Plane.pass
  split
  · exact h.nextLine
  · obtain ⟨hgeometry, hx, hy⟩ := h
    refine ⟨hgeometry, ?_, hy⟩
    simp only [toNat_advance, hgeometry, hx]
    omega

/-- No edge lies beyond the largest coordinate, so a panel is as far from it as the plane. -/
theorem le_clipped_iff {edge coordinate : UInt16} {n : Nat} (h : coordinate.toNat = min n 65535) :
    edge ≤ coordinate ↔ edge.toNat ≤ n := by
  have hedge := edge.toNat_lt
  rw [UInt16.le_iff_toNat_le, h]
  omega

theorem toNat_of_lt_edge {edge coordinate : UInt16} {n : Nat} (h : coordinate.toNat = min n 65535)
    (hlt : n < edge.toNat) : coordinate.toNat = n := by
  have hedge := edge.toNat_lt
  omega

theorem Clips.wrap (h : panel.Clips p) :
    panel.wrap.Clips p.wrap ∧ panel.wrap.x.toNat = p.wrap.x := by
  -- The column is exact from here on. The row can still be cut off, by one sum or by two.
  have hedge : panel.geometry.width ≤ panel.x ↔ p.geometry.width.toNat ≤ p.x := by
    rw [h.geometry]
    exact le_clipped_iff h.x
  unfold Panel.wrap Plane.wrap
  by_cases hwide : p.geometry.width.toNat ≤ p.x
  · rw [if_pos (hedge.mpr hwide), if_pos hwide]
    exact ⟨h.nextLine, rfl⟩
  · rw [if_neg (mt hedge.mp hwide), if_neg hwide]
    exact ⟨h, toNat_of_lt_edge h.x (Nat.lt_of_not_le hwide)⟩

theorem Clips.turn (h : panel.Clips p) (hx : panel.x.toNat = p.x) :
    panel.turn.1.plane = p.turn.1 ∧
      panel.turn.2 = if p.Full then [.clearScreen] else [] := by
  -- A row that is cut off has reached the bottom, so it is not kept.
  have hedge : panel.geometry.height ≤ panel.y ↔ p.Full := by
    rw [h.geometry]
    exact le_clipped_iff h.y
  unfold Panel.turn Plane.turn
  by_cases hfull : p.Full
  · rw [if_pos (hedge.mpr hfull), if_pos hfull, if_pos hfull]
    exact ⟨by rw [plane, hx, h.geometry], rfl⟩
  · have hy := toNat_of_lt_edge h.y (Nat.lt_of_not_le hfull)
    rw [if_neg (mt hedge.mp hfull), if_neg hfull, if_neg hfull]
    exact ⟨by rw [plane, hx, hy, h.geometry], rfl⟩

end

/-! ### Operations -/

theorem plane_print (c : UInt8) (panel : Panel) :
    (panel.print c).1.plane = (panel.plane.pass c).wrap.turn.1 := by
  obtain ⟨hclips, hx⟩ := (panel.clips_plane.pass c).wrap
  exact (hclips.turn hx).1

/-- A character is drawn at the cursor, and the panel is wiped behind it if it is full. -/
theorem events_print (c : UInt8) (panel : Panel) :
    (panel.print c).2 =
      .glyph c panel.x panel.y ::
        if (panel.plane.pass c).wrap.Full then [.clearScreen] else [] := by
  obtain ⟨hclips, hx⟩ := (panel.clips_plane.pass c).wrap
  exact congrArg _ (hclips.turn hx).2

theorem perform_plane (panel : Panel) (op : Operation) :
    ((panel.perform op).1.plane, (panel.perform op).2.map Event.mark?) =
      ((panel.plane.perform op).1, (panel.plane.perform op).2.map some) := by
  cases op with
  | print c =>
    have hmarks : (panel.print c).2.map Event.mark? =
        some (.glyph c panel.plane.x panel.plane.y) ::
          (panel.plane.pass c).wrap.turn.2.map some := by
      rw [events_print, Plane.turn]
      split
      · rfl
      · rfl
    exact Prod.ext (plane_print c panel) hmarks
  | _ => rfl

/-- No history of a panel shows that sums of coordinates are cut off on it: after each operation its
    cursor is that of the plane, and its events leave the marks of the plane. -/
theorem saturation_unobservable (panel : Panel) (ops : List Operation) :
    (panel.history ops).map (fun entry => (entry.1.plane, entry.2.map Event.mark?)) =
      (panel.plane.history ops).map fun entry => (entry.1, entry.2.map some) := by
  induction ops generalizing panel with
  | nil => rfl
  | cons op ops ih =>
    have hop := perform_plane panel op
    have hnext : (panel.perform op).1.plane = (panel.plane.perform op).1 := congrArg Prod.fst hop
    rw [history, Plane.history, List.map_cons, List.map_cons, hop, ih, hnext]

end Panel

end Microboard
