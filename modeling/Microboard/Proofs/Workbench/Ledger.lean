import Microboard.Machine.View
import Microboard.Proofs.Machine.Fetch
import Microboard.Proofs.Machine.Ledger
import Microboard.Proofs.Workbench.Session

/-!
# The ledger of a session

From a load that succeeds until the next one, the buffers and the counter of the machine at a
workbench are a ledger of what happens there; from the connection of an analog input until the next
one, so are the samples that have been drawn: `session_ledger`. Compiling and rejected loads enter
nothing.
-/

namespace Microboard.Workbench

/-! ### Steps and loads -/

def stepsOf (w : Workbench) : Operation → List Step
  | .machine op => w.machine.stepsOf op
  | _ => []

def stepsOfAll (w : Workbench) : List Operation → List Step
  | [] => []
  | op :: ops => w.stepsOf op ++ (w.perform op).bench.stepsOfAll ops

def image? (w : Workbench) : Operation → Option (Array UInt8)
  | .load image | .machine (.load image) => some image
  | .loadCompiled => w.firmware
  | _ => none

/-- An operation loads something: it asks for an image that fits. -/
def Loads (w : Workbench) (op : Operation) : Prop :=
  ∃ image ∈ w.image? op, image.size ≤ flashCapacity

/-- No operation of a row loads anything. -/
def LoadsNone (w : Workbench) : List Operation → Prop
  | [] => True
  | op :: ops => ¬w.Loads op ∧ (w.perform op).bench.LoadsNone ops

theorem machine_load_of_size_le {image : Array UInt8} (h : image.size ≤ flashCapacity)
    (w : Workbench) :
    ∃ flash, (w.load image).bench.machine = w.machine.withFlash flash := by
  obtain ⟨flash, hflash, -, -⟩ := Flash.load_of_size_le h w.machine.flash
  refine ⟨flash, ?_⟩
  simp only [load, Machine.load, hflash, Except.map]

/-- A load that succeeds empties the buffers and sets the counter back. -/
theorem Loads.machine_eq {w : Workbench} {op : Operation} (h : w.Loads op) :
    ∃ flash, (w.perform op).bench.machine = w.machine.withFlash flash := by
  obtain ⟨image, himage, hfits⟩ := h
  cases op with
  | compile text => cases himage
  | load other =>
    cases himage
    exact machine_load_of_size_le hfits w
  | loadCompiled =>
    rw [perform, loadCompiled_of_some himage]
    exact machine_load_of_size_le hfits w
  | machine op =>
    cases op with
    | load other =>
      cases himage
      obtain ⟨flash, hflash, -, -⟩ := Flash.load_of_size_le hfits w.machine.flash
      refine ⟨flash, ?_⟩
      simp only [perform, Machine.perform_load_of_ok hflash]
    | _ => cases himage

theorem lt_of_not_loads {w : Workbench} {op : Operation} {image : Array UInt8}
    (h : ¬w.Loads op) (himage : w.image? op = some image) : flashCapacity < image.size :=
  Nat.lt_of_not_le fun hfits => h ⟨image, himage, hfits⟩

/-! ### Buffers and counter -/

/-- Without a load, all that happens in an operation happens in its steps, and they are logged. -/
theorem logged_perform {w : Workbench} {op : Operation} (h : ¬w.Loads op) :
    (w.perform op).events = (w.stepsOf op).flatMap Step.events ∧
      w.machine.Logged (w.stepsOf op) (w.perform op).bench.machine := by
  cases op with
  | compile text => exact ⟨rfl, .of_eq rfl rfl rfl rfl rfl⟩
  | load image =>
    rw [perform, load_of_lt (lt_of_not_loads h rfl)]
    exact ⟨rfl, .refl w.machine⟩
  | loadCompiled =>
    rw [perform]
    cases hfirmware : w.firmware with
    | none =>
      rw [loadCompiled_of_none hfirmware]
      exact ⟨rfl, .refl w.machine⟩
    | some image =>
      rw [loadCompiled_of_some hfirmware, load_of_lt (lt_of_not_loads h hfirmware)]
      exact ⟨rfl, .refl w.machine⟩
  | machine op =>
    refine ⟨w.machine.perform_events op, .perform ?_⟩
    intro image hop
    exact lt_of_not_loads h (congrArg (fun op => w.image? (.machine op)) hop)

theorem logged_performAll {w : Workbench} {ops : List Operation} (h : w.LoadsNone ops) :
    w.eventsOf ops = (w.stepsOfAll ops).flatMap Step.events ∧
      w.machine.Logged (w.stepsOfAll ops) (w.performAll ops).machine := by
  induction ops generalizing w with
  | nil => exact ⟨rfl, .refl w.machine⟩
  | cons op ops ih =>
    obtain ⟨hop, hops⟩ := h
    obtain ⟨hevents, hlogged⟩ := logged_perform hop
    obtain ⟨hrest, hmore⟩ := ih hops
    constructor
    · rw [eventsOf_cons, hevents, hrest, stepsOfAll, List.flatMap_append]
    · exact hlogged.append hmore

/-! ### Samples -/

theorem adc_load (w : Workbench) (image : Array UInt8) :
    (w.load image).bench.machine.adc = w.machine.adc := by
  by_cases h : image.size ≤ flashCapacity
  · obtain ⟨flash, hflash⟩ := machine_load_of_size_le h w
    rw [hflash]
    rfl
  · rw [load_of_lt (Nat.lt_of_not_le h)]

theorem sampled_perform {op : Operation} (hop : ∀ input, op ≠ .machine (.connect input))
    (w : Workbench) : w.machine.Sampled (w.stepsOf op) (w.perform op).bench.machine := by
  cases op with
  | compile text => exact .of_eq rfl rfl
  | load image => exact .of_eq rfl (w.adc_load image)
  | loadCompiled =>
    apply Machine.Sampled.of_eq rfl
    rw [perform]
    cases hfirmware : w.firmware with
    | none => rw [loadCompiled_of_none hfirmware]
    | some image => rw [loadCompiled_of_some hfirmware, adc_load]
  | machine op =>
    apply Machine.Sampled.perform
    intro input hconnect
    exact hop input (congrArg Operation.machine hconnect)

theorem sampled_performAll {ops : List Operation}
    (hops : ∀ input, Operation.machine (.connect input) ∉ ops) (w : Workbench) :
    w.machine.Sampled (w.stepsOfAll ops) (w.performAll ops).machine := by
  induction ops generalizing w with
  | nil => exact .refl w.machine
  | cons op ops ih =>
    have hop : ∀ input, op ≠ .machine (.connect input) := by
      intro input heq
      exact hops input (heq ▸ List.mem_cons_self)
    have hrest : ∀ input, Operation.machine (.connect input) ∉ ops := by
      intro input hmem
      exact hops input (List.mem_cons_of_mem op hmem)
    exact (sampled_perform hop w).append (ih hrest _)

/-- After a load that has succeeded, until the next one: the serial buffer shows the characters of
    the serial bytes among the events in order, the SPI buffer those of the SPI bytes, and the
    counter is the number of steps that executed an instruction, modulo 2^64. After an analog input
    has been connected, until the next one: the executed readings leave in their registers the low
    bytes of its samples in turn, each cut off at 4095, and nothing but such a reading draws a
    sample. -/
theorem session_ledger (w : Workbench) (op : Operation) (ops : List Operation) :
    let start := (w.perform op).bench
    let final := (start.performAll ops).machine
    let events := start.eventsOf ops
    let steps := start.stepsOfAll ops
    let readings := steps.filterMap Step.reading?
    (w.Loads op → start.LoadsNone ops →
      outputText final.serial =
          .ofList ((events.filterMap Event.serial?).map fun byte => Char.ofNat byte.toNat) ∧
        outputText final.spi =
          .ofList ((events.filterMap Event.spi?).map fun byte => Char.ofNat byte.toNat) ∧
        final.executed = (steps.filterMap Step.executed?).length % UInt64.size) ∧
      ∀ input, op = .machine (.connect input) →
        (∀ other, Operation.machine (.connect other) ∉ ops) →
        readings = (List.range readings.length).map (fun k =>
            UInt8.ofNat (min (input.sample (input.drawn + k)).toInt 4095 % 256).toNat) ∧
          final.adc = { input with drawn := input.drawn + readings.length } := by
  intro start final events steps readings
  constructor
  · intro hload hops
    obtain ⟨flash, hstart⟩ := hload.machine_eq
    obtain ⟨hevents, hlogged⟩ := logged_performAll hops
    have hserial : final.serial.toList = events.filterMap Event.serial? := by
      rw [hlogged.serial_eq, ← hevents, hstart]
      rfl
    have hspi : final.spi.toList = events.filterMap Event.spi? := by
      rw [hlogged.spi_eq, ← hevents, hstart]
      rfl
    have hexecuted :
        final.executed = (0 + (steps.filterMap Step.executed?).length) % UInt64.size := by
      rw [hlogged.executed_eq, hstart]
      rfl
    refine ⟨?_, ?_, ?_⟩
    · rw [outputText, hserial]
    · rw [outputText, hspi]
    · rw [hexecuted, Nat.zero_add]
  · intro input hop hops
    have hsampled := sampled_performAll hops start
    have hadc : start.machine.adc = input := by
      simp only [start, hop, perform, Machine.perform]
    constructor
    · have hreadings := hsampled.readings_eq
      rwa [hadc] at hreadings
    · have hfinal := hsampled.adc_eq
      rwa [hadc] at hfinal

/-- A reading of 5000 is cut off at 4095, and its low byte is sent. -/
theorem session_ledger_reading :
    let code : List Instruction := [.readAdc 0, .serialWrite 0]
    let large : Array UInt8 := Array.replicate (flashCapacity + 1) 0
    let input := AnalogInput.ofValues #[5000]
    let w := Workbench.new {}
    let start := (w.perform (.load (Instruction.bytes code).toArray)).bench
    let ops : List Operation := [.machine .start, .machine .step, .machine .step, .compile "",
      .load large]
    let final := start.performAll (.machine (.connect input) :: ops)
    w.Loads (.load (Instruction.bytes code).toArray) ∧
      start.LoadsNone (.machine (.connect input) :: ops) ∧
      (∀ other, Operation.machine (.connect other) ∉ ops) ∧
      outputText final.machine.serial = "ÿ" ∧ outputText final.machine.spi = "" ∧
      final.machine.executed = 2 ∧ final.machine.adc = { input with drawn := 1 } := by
  intro code large input w start ops final
  have hload : w.Loads (.load (Instruction.bytes code).toArray) := ⟨_, rfl, by decide⟩
  have hlarge : flashCapacity < large.size := by simp [large]
  have hops : start.LoadsNone (.machine (.connect input) :: ops) := by
    simp [LoadsNone, Loads, image?, ops, hlarge]
  have hnone : ∀ other, Operation.machine (.connect other) ∉ ops := by simp [ops]
  obtain ⟨flash, hflash, hholds⟩ : ∃ flash,
      w.machine.flash.load (Instruction.bytes code).toArray = .ok flash ∧ flash.Holds code :=
    Flash.holds_of_load rfl (by decide) _
  have hstart : start.machine = w.machine.withFlash flash := by
    simp only [start, perform, load, Machine.load, hflash, Except.map]
  -- The machine in front of its two steps: loaded, connected and started.
  let ready : Machine := { w.machine.withFlash flash with adc := input, running := true }
  have hregister : ∀ r ∈ [(0 : UInt8)], r.toNat < registerCount :=
    List.forall_mem_singleton.mpr (by decide)
  have hat : ready.At code (Instruction.size []) := ⟨hholds, rfl, rfl, fun _ => rfl, rfl⟩
  have hfirst : ready.step = ready.retire (.readAdc 0) 1 :=
    hat.step_eq rfl (by decide) hregister
  have hthere : ready.step.machine.At code (Instruction.size [.readAdc 0]) := by
    rw [hfirst]
    exact ⟨hholds, rfl, rfl, fun _ => rfl, rfl⟩
  have hsecond : ready.step.machine.step = ready.step.machine.retire (.serialWrite 0) 1 :=
    hthere.step_eq rfl (by decide) hregister
  have hbyte : ready.step.machine.registers.get 0 = 255 := by
    have hnext : input.next = 255 := by decide
    rw [hfirst, ← hnext]
    exact Registers.get_set (by decide) _ _ _
  have hsteps : (start.perform (.machine (.connect input))).bench.stepsOfAll ops =
      [ready.step, ready.step.machine.step] := by
    simp only [ops, stepsOfAll, stepsOf, Machine.stepsOf, perform, Machine.perform, hstart,
      Machine.start, List.nil_append, List.append_nil, List.singleton_append, ready]
  have hall : start.stepsOfAll (.machine (.connect input) :: ops) =
      [ready.step, ready.step.machine.step] := (List.nil_append _).trans hsteps
  have hgiven : start.eventsOf (.machine (.connect input) :: ops) = [.serial 255] := by
    rw [(logged_performAll hops).1, hall, hsecond, hfirst]
    rw [hfirst] at hbyte
    rw [← hbyte]
    rfl
  obtain ⟨hledger, -⟩ :=
    session_ledger w (.load (Instruction.bytes code).toArray) (.machine (.connect input) :: ops)
  have hbench : (w.perform (.load (Instruction.bytes code).toArray)).bench = start := rfl
  rw [hbench] at hledger
  obtain ⟨hserial, hspi, hexecuted⟩ := hledger hload hops
  rw [hgiven] at hserial hspi
  rw [hall, hsecond, hfirst] at hexecuted
  obtain ⟨-, hsamples⟩ := session_ledger start (.machine (.connect input)) ops
  obtain ⟨-, hadc⟩ := hsamples input rfl hnone
  rw [hsteps, hsecond, hfirst, ← performAll_cons] at hadc
  have hletter : String.ofList (([Event.serial 255].filterMap Event.serial?).map fun byte =>
      Char.ofNat byte.toNat) = "ÿ" := by decide
  have hfinal : final = start.performAll (.machine (.connect input) :: ops) := rfl
  rw [hfinal]
  exact ⟨hload, hops, hnone, hserial.trans hletter, hspi, hexecuted, hadc⟩

end Microboard.Workbench
