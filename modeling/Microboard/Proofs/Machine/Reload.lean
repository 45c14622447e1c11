import Microboard.Proofs.Flash
import Microboard.Proofs.Machine.Steps

/-!
# Loading leaves no trace

A session never changes the settings of its machine or the geometry of its panel. All else that
belongs to a run is reset by a load, so a load ends in the state of a new machine that loads the
same image, apart from what belongs to the host: the pins, the running flag and the analog source.
A rejected load changes nothing at all.
-/

namespace Microboard.Machine

structure BuiltWith (settings : Settings) (m : Machine) : Prop where
  settings_eq : m.settings = settings
  geometry_eq : m.panel.geometry = settings.screen

namespace BuiltWith

theorem new (settings : Settings) : (Machine.new settings).BuiltWith settings :=
  ⟨rfl, rfl⟩

variable {settings : Settings} {m : Machine}

theorem step (h : m.BuiltWith settings) : m.step.machine.BuiltWith settings := by
  obtain ⟨hsettings, -, hgeometry⟩ := m.step_frame
  exact ⟨hsettings.trans h.settings_eq, hgeometry.trans h.geometry_eq⟩

theorem withFlash (h : m.BuiltWith settings) (flash : Flash) :
    (m.withFlash flash).BuiltWith settings :=
  ⟨h.settings_eq, h.geometry_eq⟩

theorem perform (h : m.BuiltWith settings) (op : Operation) :
    (m.perform op).machine.BuiltWith settings := by
  cases op with
  | load image =>
    rcases hflash : m.flash.load image with e | flash
    · simp only [Machine.perform, load, hflash, Except.map]
      exact h
    · simp only [Machine.perform, load, hflash, Except.map]
      exact h.withFlash flash
  | step => exact h.step
  | tick => exact run_invariant (fun _ hm => hm.step) _ h
  | run budget => exact run_invariant (fun _ hm => hm.step) budget h
  | _ => exact ⟨h.settings_eq, h.geometry_eq⟩

/-- A session keeps the settings and the geometry that the machine was built with. -/
theorem performAll (history : List Operation) :
    ((Machine.new settings).performAll history).BuiltWith settings :=
  performAll_invariant (fun _ op _ h => h.perform op) _ (.new settings)

/-- Of the state before a load, only the pins, the running flag and the analog source are left. -/
theorem withFlash_eq (h : m.BuiltWith settings) (flash : Flash) :
    m.withFlash flash =
      { (Machine.new settings).withFlash flash with
        pins := m.pins, running := m.running, adc := m.adc } := by
  have hpanel : m.panel.home = ((Machine.new settings).panel).home := by
    unfold Panel.home
    rw [h.geometry_eq]
    rfl
  unfold Machine.withFlash
  rw [hpanel, h.settings_eq]
  rfl

end BuiltWith

/-- Whatever a session did before, a load that fits ends in the state of a new machine with the same
    settings that loads the same image, apart from the pins, the running flag and the analog source;
    flash is then the image, and zeros up to its capacity. A load that does not fit tells the size
    and the capacity, and changes nothing. -/
theorem reload_leaves_no_trace (settings : Settings) (history : List Operation)
    (image : Array UInt8) :
    let m := (Machine.new settings).performAll history
    let fresh := ((Machine.new settings).perform (.load image)).machine
    if image.size ≤ flashCapacity then
      m.perform (.load image) =
        ⟨{ fresh with pins := m.pins, running := m.running, adc := m.adc }, .done, []⟩ ∧
      fresh.flash.cells.toList =
        image.toList ++ List.replicate (flashCapacity - image.size) 0
    else m.perform (.load image) = ⟨m, .rejected ⟨image.size, flashCapacity⟩, []⟩ := by
  intro m fresh
  have hm : m.BuiltWith settings := BuiltWith.performAll history
  split
  · rename_i hfits
    obtain ⟨flash, hload, -, -⟩ := Flash.load_of_size_le hfits m.flash
    have hfresh : fresh = (Machine.new settings).withFlash flash := by
      have hnew : (Machine.new settings).flash.load image = .ok flash := by
        rw [Flash.load_eq_load image _ m.flash, hload]
      simp only [fresh, perform_load_of_ok hnew]
    refine ⟨?_, ?_⟩
    · rw [perform_load_of_ok hload, hm.withFlash_eq flash, hfresh]
    · rw [hfresh]
      exact Flash.cells_of_load hload
  · rename_i hlarge
    exact perform_load_of_error (Flash.load_of_lt (Nat.lt_of_not_le hlarge) m.flash)

end Microboard.Machine
