import Microboard.Proofs.Flash
import Microboard.Workbench

/-!
# What a workbench keeps

A workbench keeps the code of the last program that it could compile, whatever else is done at it:
`firmware_kept`. Loading that code is like loading it as an image, and leaves it at the workbench
even if it is rejected.
-/

namespace Microboard.Workbench

/-! ### Operations in a row -/

def performAll (w : Workbench) (ops : List Operation) : Workbench :=
  ops.foldl (fun w op => (w.perform op).bench) w

def responses (w : Workbench) : List Operation → List Response
  | [] => []
  | op :: ops => w.perform op :: (w.perform op).bench.responses ops

def eventsOf (w : Workbench) (ops : List Operation) : List Event :=
  (w.responses ops).flatMap Response.events

theorem performAll_cons (w : Workbench) (op : Operation) (ops : List Operation) :
    w.performAll (op :: ops) = (w.perform op).bench.performAll ops := rfl

theorem eventsOf_cons (w : Workbench) (op : Operation) (ops : List Operation) :
    w.eventsOf (op :: ops) = (w.perform op).events ++ (w.perform op).bench.eventsOf ops :=
  List.flatMap_cons

/-! ### Loading -/

theorem load_of_size_le {image : Array UInt8} (h : image.size ≤ flashCapacity) (w : Workbench) :
    ∃ loaded, w.machine.load image = .ok loaded ∧
      w.load image = ⟨{ w with machine := loaded }, .loaded, [.clearScreen]⟩ := by
  obtain ⟨flash, hflash, -, -⟩ := Flash.load_of_size_le h w.machine.flash
  have hload : w.machine.load image = .ok (w.machine.withFlash flash) := by
    simp only [Machine.load, hflash, Except.map]
  exact ⟨_, hload, by simp only [load, hload]⟩

theorem load_of_lt {image : Array UInt8} (h : flashCapacity < image.size) (w : Workbench) :
    w.load image = ⟨w, .rejected ⟨image.size, flashCapacity⟩, []⟩ := by
  have hload : w.machine.load image = .error ⟨image.size, flashCapacity⟩ := by
    simp only [Machine.load, Flash.load_of_lt h w.machine.flash, Except.map]
  simp only [load, hload]

theorem firmware_load (w : Workbench) (image : Array UInt8) :
    (w.load image).bench.firmware = w.firmware := by
  unfold load
  split <;> rfl

/-- Putting the firmware back undoes taking it out, so loading it is like loading any image. -/
theorem loadCompiled_of_some {w : Workbench} {image : Array UInt8} (h : w.firmware = some image) :
    w.loadCompiled = w.load image := by
  have hback : { w with firmware := some image } = w := by
    rw [← h]
  simp only [loadCompiled, h, load]
  cases w.machine.load image with
  | ok machine => rfl
  | error e => simp only [hback]

theorem loadCompiled_of_none {w : Workbench} (h : w.firmware = none) :
    w.loadCompiled = ⟨w, .nothingCompiled, []⟩ := by
  simp only [loadCompiled, h]

/-! ### What was compiled last -/

def Reply.code? : Reply → Option (Array UInt8)
  | .compiled (.ok firmware) => some firmware.code
  | _ => none

def lastCode (rs : List Response) : Option (Array UInt8) :=
  (rs.filterMap fun r => r.reply.code?).getLast?

theorem lastCode_cons (r : Response) (rs : List Response) :
    lastCode (r :: rs) = (lastCode rs).or r.reply.code? := by
  unfold lastCode
  rw [List.filterMap_cons]
  cases r.reply.code? with
  | none => exact (Option.or_none).symm
  | some code =>
    rw [List.getLast?_cons]
    cases (rs.filterMap fun r => r.reply.code?).getLast? <;> rfl

theorem code?_load (w : Workbench) (image : Array UInt8) :
    (w.load image).reply.code? = none := by
  unfold load
  split <;> rfl

/-- Only a compilation that succeeds changes what is kept. -/
theorem firmware_perform (w : Workbench) (op : Operation) :
    (w.perform op).bench.firmware = (w.perform op).reply.code?.or w.firmware := by
  cases op with
  | compile text =>
    simp only [perform, compile]
    cases compileText text <;> rfl
  | load image =>
    rw [perform, firmware_load, code?_load]
    rfl
  | loadCompiled =>
    rw [perform]
    cases hfirmware : w.firmware with
    | none =>
      rw [loadCompiled_of_none hfirmware, hfirmware]
      rfl
    | some image =>
      rw [loadCompiled_of_some hfirmware, firmware_load, code?_load, hfirmware]
      rfl
  | machine op => rfl

theorem firmware_performAll (w : Workbench) (ops : List Operation) :
    (w.performAll ops).firmware = (lastCode (w.responses ops)).or w.firmware := by
  induction ops generalizing w with
  | nil => rfl
  | cons op ops ih =>
    rw [performAll_cons, ih, firmware_perform, responses, lastCode_cons, Option.or_assoc]

/-- Whatever has been done at a workbench, it keeps the code in the last report of success. Without
    one there is nothing to load, and nothing happens. Otherwise loading what was compiled does and
    tells what loading that code as an image does: it blanks the display, or is rejected and changes
    nothing, and the code is still there. Compiling tells its outcome, and of the machine it only
    clears the registers. -/
theorem firmware_kept (settings : Settings) (ops : List Operation) :
    let w := (Workbench.new settings).performAll ops
    w.firmware = lastCode ((Workbench.new settings).responses ops) ∧
      (w.firmware = none → w.perform .loadCompiled = ⟨w, .nothingCompiled, []⟩) ∧
      (∀ image, w.firmware = some image →
        w.perform .loadCompiled = w.perform (.load image) ∧
        (w.perform .loadCompiled).bench.firmware = some image ∧
        if image.size ≤ flashCapacity then
          ∃ loaded, w.machine.load image = .ok loaded ∧
            w.perform .loadCompiled = ⟨{ w with machine := loaded }, .loaded, [.clearScreen]⟩
        else w.perform .loadCompiled = ⟨w, .rejected ⟨image.size, flashCapacity⟩, []⟩) ∧
      ∀ text, ∃ bench, w.perform (.compile text) = ⟨bench, .compiled (compileText text), []⟩ ∧
        bench.machine = { w.machine with registers := .zero } ∧
        ∀ r, bench.machine.registers.get r = 0 := by
  intro w
  refine ⟨?_, loadCompiled_of_none, ?_, ?_⟩
  · exact (firmware_performAll (Workbench.new settings) ops).trans Option.or_none
  · intro image himage
    have hload : w.perform .loadCompiled = w.load image := loadCompiled_of_some himage
    refine ⟨hload, ?_, ?_⟩
    · rw [hload, firmware_load, himage]
    · rw [hload]
      split
      · rename_i hfits
        exact load_of_size_le hfits w
      · rename_i hlarge
        exact load_of_lt (Nat.lt_of_not_le hlarge) w
  · intro text
    exact ⟨_, rfl, rfl, Registers.get_zero⟩

end Microboard.Workbench
