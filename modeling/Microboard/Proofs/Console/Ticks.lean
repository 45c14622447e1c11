import Microboard.Proofs.Console.Session
import Microboard.Proofs.Machine.Batches

/-!
# Ticks of a session

A session that runs so many ticks of so many steps each takes all these steps in a row, and stops
early only where further steps would do nothing: `runTicks_eq`. The steps per tick are read nowhere
else. So of the two numbers only their product can be told from what a session prints:
`session_of_equal_steps`.
-/

namespace Microboard

namespace Machine

/-! ### Settings that no step reads -/

/-- A machine with other settings. The panel and the analog source stay those that were built from
    the old ones. -/
def withSettings (settings : Settings) (m : Machine) : Machine :=
  { m with settings }

variable (settings : Settings) (m : Machine)

theorem execute_withSettings (i : Instruction) :
    (m.withSettings settings).execute i =
      ((m.execute i).1.withSettings settings, (m.execute i).2) := by
  cases i with
  | loadPin r p =>
    simp only [execute, withSettings]
    split
    · rfl
    · rfl
  | screenPrint r => simp only [execute, withSettings]
  | _ => rfl

theorem retire_withSettings (i : Instruction) (length : UInt8) :
    (m.withSettings settings).retire i length =
      ⟨(m.retire i length).machine.withSettings settings, (m.retire i length).outcome,
        (m.retire i length).events⟩ := by
  simp only [retire, execute_withSettings]
  have hflag : (m.withSettings settings).flag = m.flag := rfl
  rw [hflag]
  split
  · rfl
  · rfl

theorem step_withSettings :
    (m.withSettings settings).step =
      ⟨m.step.machine.withSettings settings, m.step.outcome, m.step.events⟩ := by
  have hlive : (m.withSettings settings).live? = m.live? := rfl
  have hdelay : (m.withSettings settings).delay = m.delay := rfl
  have hflash : (m.withSettings settings).flash = m.flash := rfl
  simp only [step, hlive, hdelay, hflash]
  split
  · rfl
  · split
    · rfl
    · split
      · rfl
      · exact retire_withSettings settings m _ _

theorem after_withSettings (k : Nat) :
    (m.withSettings settings).after k = (m.after k).withSettings settings := by
  induction k generalizing m with
  | zero => rfl
  | succ k ih => rw [after, step_withSettings, ih, after]

theorem emitted_withSettings (k : Nat) : (m.withSettings settings).emitted k = m.emitted k := by
  induction k generalizing m with
  | zero => rfl
  | succ k ih => rw [emitted, step_withSettings, ih, emitted]

theorem load_withSettings (image : Array UInt8) :
    (m.withSettings settings).load image = (m.load image).map (withSettings settings) := by
  have hflash : (m.withSettings settings).flash = m.flash := rfl
  rw [load, load, hflash]
  rcases m.flash.load image with e | flash
  · rfl
  · rfl

end Machine

namespace Console

/-! ### Ticks in a row -/

theorem runTicks_of_off {m : Machine} (h : m.running = false) (ticks : Nat)
    (events : Array Event) : runTicks ticks events m = (m, events.toList) := by
  cases ticks with
  | zero => rfl
  | succ ticks =>
    rw [runTicks]
    split
    · rfl
    · rw [Machine.tick, Machine.run_of_off h]
      simp

/-- The first of some ticks is its steps, and the other ticks follow, if only in vain. -/
theorem runTicks_succ (ticks : Nat) (events : Array Event) (m : Machine) :
    runTicks (ticks + 1) events m =
      runTicks ticks (events ++ m.emitted m.settings.stepsPerTick.toNat)
        (m.after m.settings.stepsPerTick.toNat) := by
  obtain ⟨hmachine, hevents, -⟩ := Machine.run_eq m.settings.stepsPerTick.toNat m
  by_cases hzero : m.settings.stepsPerTick = 0
  · have hnone : runTicks (ticks + 1) events m = (m, events.toList) := by
      rw [runTicks, if_pos hzero]
    have hrest : runTicks ticks events m = (m, events.toList) := by
      cases ticks with
      | zero => rfl
      | succ ticks => rw [runTicks, if_pos hzero]
    rw [hnone, hzero]
    simp [Machine.after, Machine.emitted, hrest]
  · rw [runTicks, if_neg hzero, Machine.tick]
    simp only [hmachine, hevents]
    rcases hresult : (m.run m.settings.stepsPerTick.toNat).result with fault | report
    · have hoff := Machine.off_of_run_error hresult
      rw [hmachine] at hoff
      rw [runTicks_of_off hoff]
    · have hrunning := Machine.running_of_run_ok hresult
      rw [hmachine] at hrunning
      simp only [hrunning]
      split
      · rfl
      · rename_i hon
        rw [runTicks_of_off (eq_false_of_ne_true hon)]

/-- Ticks in a row are all their steps in a row. -/
theorem runTicks_eq (ticks : Nat) (events : Array Event) (m : Machine) :
    runTicks ticks events m = (m.after (ticks * m.settings.stepsPerTick.toNat),
      events.toList ++ m.emitted (ticks * m.settings.stepsPerTick.toNat)) := by
  induction ticks generalizing events m with
  | zero => simp [runTicks, Machine.after, Machine.emitted]
  | succ ticks ih =>
    rw [runTicks_succ, ih, Machine.settings_after, Nat.succ_mul, Nat.add_comm, Machine.after_add,
      Machine.emitted_add, Array.toList_appendList, List.append_assoc]

/-! ### The two numbers -/

namespace Options

variable (o : Options)

/-- The same options, but for the numbers of ticks and of steps per tick. -/
def atPace (ticks steps : UInt32) : Options :=
  { o with ticks, stepsPerTick := some steps }

/-- What is printed about so many steps of a machine. -/
def reportAfter (steps : Nat) (m : Machine) : String :=
  (if o.events then eventLog (m.emitted steps) else "") ++ (m.after steps).view.indented ++ "\n"

theorem reportAfter_withSettings (steps : Nat) (settings : Settings) (m : Machine) :
    o.reportAfter steps (m.withSettings settings) = o.reportAfter steps m := by
  simp only [reportAfter, Machine.emitted_withSettings, Machine.after_withSettings]
  rfl

theorem runImage_eq (settings : Settings) (image : Array UInt8) :
    o.runImage settings image = (((o.machine settings).load image).mapError .load).map fun loaded =>
      o.reportAfter (o.ticks.toNat * loaded.settings.stepsPerTick.toNat) loaded.start := by
  rw [runImage]
  rcases (o.machine settings).load image with e | loaded
  · rfl
  · have hloaded : (Except.ok loaded : Except CapacityExceeded Machine).mapError Failure.load =
        .ok loaded := rfl
    simp only [hloaded, bind, Except.bind, Except.map, runTicks_eq, pure, Except.pure]
    rfl

section Pace

variable (ticks steps : UInt32)

theorem machine_atPace (settings : Settings) :
    (o.atPace ticks steps).machine { settings with stepsPerTick := steps } =
      (o.machine settings).withSettings { settings with stepsPerTick := steps } := by
  simp only [machine, atPace]
  split
  · rfl
  · rfl

/-- Of the pace, a run of an image depends on the product of its numbers only. -/
theorem runImage_atPace (settings : Settings) (image : Array UInt8) :
    (o.atPace ticks steps).runImage { settings with stepsPerTick := steps } image =
      (((o.machine settings).load image).mapError .load).map fun loaded =>
        o.reportAfter (ticks.toNat * steps.toNat) loaded.start := by
  rw [runImage_eq, machine_atPace, Machine.load_withSettings]
  rcases (o.machine settings).load image with e | loaded
  · rfl
  · have hreport := o.reportAfter_withSettings (ticks.toNat * steps.toNat)
      { settings with stepsPerTick := steps } loaded.start
    exact congrArg Except.ok hreport

theorem settings_atPace (disk : Disk) (environment : Option String) :
    (o.atPace ticks steps).settings disk environment =
      (o.settings disk environment).map fun settings =>
        { settings with stepsPerTick := steps } := by
  have hfile : (o.atPace ticks steps).fileSettings disk = o.fileSettings disk := rfl
  rw [settings_eq, settings_eq, hfile]
  rcases o.fileSettings disk with f | base
  · rfl
  · rfl

theorem prepare_atPace (disk : Disk) (input : File) (environment : Option String) :
    (o.atPace ticks steps).prepare disk input environment =
      (o.prepare disk input environment).map fun (settings, image, disk) =>
        ({ settings with stepsPerTick := steps }, image, disk) := by
  have himage : (o.atPace ticks steps).image disk input = o.image disk input := rfl
  have houtput : (o.atPace ticks steps).outputDisk disk = o.outputDisk disk := rfl
  simp only [prepare, settings_atPace, himage, houtput]
  rcases o.settings disk environment with f | settings
  · rfl
  · rcases o.image disk input with f | image
    · rfl
    · simp only [Except.map, bind, Except.bind]
      rcases o.outputDisk disk image with f | written
      · rfl
      · rfl

theorem present_atPace (hticks : 1 ≤ ticks) (settings : Settings) (image : Array UInt8) :
    (o.atPace ticks steps).present { settings with stepsPerTick := steps } image =
      let listing := if o.disasm then (Listing.ofImage image.toList).text else ""
      match (((o.machine settings).load image).mapError Failure.load).map fun loaded =>
        o.reportAfter (ticks.toNat * steps.toNat) loaded.start with
      | .ok printed => (listing ++ printed, none)
      | .error f => (listing, some f) := by
  have hsome : ¬ (o.atPace ticks steps).ticks = 0 := by
    intro hzero
    rw [show ticks = 0 from hzero] at hticks
    exact absurd hticks (by decide)
  rw [present, if_neg hsome, runImage_atPace]
  rfl

end Pace

end Options

/-- Two sessions with the same options but for the numbers of ticks and of steps per tick leave the
    same transcript, if both run at all and the total number of steps is the same: they print the
    same, fail alike, and leave the same disk. -/
theorem session_of_equal_steps (o : Options) (disk : Disk) (input : File)
    (environment : Option String) {ticks steps more fewer : UInt32} (hticks : 1 ≤ ticks)
    (hmore : 1 ≤ more) (htotal : ticks.toNat * steps.toNat = more.toNat * fewer.toNat) :
    (o.atPace ticks steps).session disk input environment =
      (o.atPace more fewer).session disk input environment := by
  rw [Options.session_eq, Options.session_eq, Options.prepare_atPace, Options.prepare_atPace]
  rcases o.prepare disk input environment with f | ⟨settings, image, written⟩
  · rfl
  · simp only [Except.map]
    rw [Options.present_atPace o ticks steps hticks, Options.present_atPace o more fewer hmore,
      htotal]

/-- An image that blanks the display: six ticks of two steps print what four ticks of three do. -/
theorem session_of_equal_steps_blanking :
    let o : Options := { firmware := some "blank.bin", disasm := true, events := true }
    let disk : Disk := .ofFiles [("blank.bin", #[0x1A, 0])]
    let steps := (6 : UInt32).toNat * (2 : UInt32).toNat
    (1 : UInt32) ≤ 6 ∧ (1 : UInt32) ≤ 4 ∧ steps = (4 : UInt32).toNat * (3 : UInt32).toNat ∧
      ((o.atPace 6 2).session disk ⟨none⟩ none).Prepared ∧
      ((o.atPace 6 2).session disk ⟨none⟩ none).printed =
        ((o.atPace 4 3).session disk ⟨none⟩ none).printed := by
  intro o disk steps
  have hpace := session_of_equal_steps o disk ⟨none⟩ none (by decide : (1 : UInt32) ≤ 6)
    (by decide : (1 : UInt32) ≤ 4) (by decide : steps = (4 : UInt32).toNat * (3 : UInt32).toNat)
  refine ⟨by decide, by decide, by decide, ?_, congrArg Transcript.printed hpace⟩
  exact Options.prepared_iff.mpr ⟨_, Options.prepare_eq_ok.mpr ⟨rfl, rfl, rfl⟩⟩

end Console

end Microboard
