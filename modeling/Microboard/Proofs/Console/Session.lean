import Microboard.Console.Session

/-!
# Sessions and what they write

Before a session prints anything it gets its settings and its image and writes the image if it is
asked to: `Options.prepare`. What it prints depends on nothing else. So a session that runs a
program and writes the firmware can be repeated from the file that it wrote: `rerun_from_output`.
-/

namespace Microboard.Console

/-! ### Files on a disk -/

/-- A text is read back from its bytes. -/
theorem text_toUTF8 (text : String) : (File.mk (some text.toUTF8.data)).text = .ok text := by
  have hdecode : String.fromUTF8? text.toByteArray = some text := by
    rw [String.fromUTF8?, dif_pos text.isValidUTF8]
    rfl
  simp only [File.text, File.bytes, bind, Except.bind, String.toUTF8_eq_toByteArray, hdecode]
  rfl

namespace Disk

theorem file_write {disk written : Disk} {path : String} {bytes : Array UInt8}
    (h : disk.write path bytes = .ok written) : written.file path = ⟨some bytes⟩ := by
  simp only [write] at h
  split at h
  · cases h
    simp [file]
  · cases h

/-- Writing a file leaves alone the files at other paths. -/
theorem file_write_of_ne {disk written : Disk} {path other : String} {bytes : Array UInt8}
    (h : disk.write path bytes = .ok written) (hne : pathSteps other ≠ pathSteps path) :
    written.file other = disk.file other := by
  simp only [write] at h
  split at h
  · cases h
    have hfind : (disk.files.filter (·.1 ≠ pathSteps path)).find? (·.1 = pathSteps other) =
        disk.files.find? (·.1 = pathSteps other) := by
      rw [List.find?_filter]
      congr 1
      funext f
      by_cases hf : f.1 = pathSteps other
      · simp [hf, hne]
      · simp [hf]
    simp only [file, List.find?_cons, hne.symm, decide_false, hfind]
  · cases h

end Disk

/-! ### Preparation -/

/-- The settings in the file that is asked for, or else the default ones. -/
def Options.fileSettings (o : Options) (disk : Disk) : Except Failure Settings :=
  match o.config with
  | some path => (Settings.ofFile (disk.file path)).mapError (.settings path)
  | none => .ok {}

theorem Options.settings_eq (o : Options) (disk : Disk) (environment : Option String) :
    o.settings disk environment = (o.fileSettings disk).map fun base =>
      { base.override environment with
        stepsPerTick := o.stepsPerTick.getD (base.override environment).stepsPerTick } := by
  rcases hconfig : o.config with _ | path
  · simp only [settings, fileSettings, hconfig]
    rfl
  · simp only [settings, fileSettings, hconfig]
    rcases Settings.ofFile (disk.file path) with cause | base
    · rfl
    · rfl

/-- The disk once the image has been written to where it is asked for. -/
def Options.outputDisk (o : Options) (disk : Disk) (image : Array UInt8) : Except Failure Disk :=
  match o.output with
  | some path => (disk.write path image).mapError (.output path)
  | none => .ok disk

/-- What a session has at hand before it prints anything: its settings, its image, and the disk with
    the output. -/
def Options.prepare (o : Options) (disk : Disk) (input : File) (environment : Option String) :
    Except Failure (Settings × Array UInt8 × Disk) := do
  let settings ← o.settings disk environment
  let image ← o.image disk input
  let disk ← o.outputDisk disk image
  return (settings, image, disk)

theorem Options.session_eq (o : Options) (disk : Disk) (input : File)
    (environment : Option String) :
    o.session disk input environment =
      match o.prepare disk input environment with
      | .error f => ⟨"", some f, disk⟩
      | .ok (settings, image, disk) =>
        ⟨(o.present settings image).1, (o.present settings image).2, disk⟩ := by
  rcases o with ⟨ast, firmware, _ | path, disasm, ticks, steps, config, adc, events⟩
  · rfl
  · rfl

/-- A sequence succeeds if both parts do. -/
theorem bind_eq_ok {ε α β : Type} {x : Except ε α} {f : α → Except ε β} {b : β} :
    (x >>= f) = .ok b ↔ ∃ a, x = .ok a ∧ f a = .ok b := by
  rcases x with e | a
  · simp [bind, Except.bind]
  · simp [bind, Except.bind]

theorem Options.prepare_eq_ok {o : Options} {disk written : Disk} {input : File}
    {environment : Option String} {settings : Settings} {image : Array UInt8} :
    o.prepare disk input environment = .ok (settings, image, written) ↔
      o.settings disk environment = .ok settings ∧ o.image disk input = .ok image ∧
        o.outputDisk disk image = .ok written := by
  simp only [prepare, bind_eq_ok]
  constructor
  · rintro ⟨settings, hsettings, image, himage, disk, hdisk, hready⟩
    cases hready
    exact ⟨hsettings, himage, hdisk⟩
  · rintro ⟨hsettings, himage, hdisk⟩
    exact ⟨settings, hsettings, image, himage, written, hdisk, rfl⟩

/-- The image of a session that compiles a program is the code of its firmware. -/
theorem Options.image_eq_ok {o : Options} {source : String} {disk : Disk} {input : File}
    {image : Array UInt8} (hast : o.ast = some source) (hfirmware : o.firmware = none) :
    o.image disk input = .ok image ↔
      ∃ text firmware, programText source disk input = .ok text ∧
        compileText text = .ok firmware ∧ image = firmware.code := by
  simp only [Options.image, hast, hfirmware, bind_eq_ok]
  constructor
  · rintro ⟨text, htext, firmware, hcompile, himage⟩
    rcases hfound : compileText text with e | found
    · rw [hfound] at hcompile
      cases hcompile
    · rw [hfound] at hcompile
      cases hcompile
      cases himage
      exact ⟨text, firmware, htext, hfound, rfl⟩
  · rintro ⟨text, firmware, htext, hcompile, rfl⟩
    refine ⟨text, htext, firmware, ?_, rfl⟩
    rw [hcompile]
    rfl

/-! ### Failures -/

/-- The session got past its preparation: only the load can have failed. -/
def Transcript.Prepared (t : Transcript) : Prop :=
  ∀ f, t.failure = some f → ∃ e, f = .load e

theorem bind_eq_error {ε α β : Type} {x : Except ε α} {f : α → Except ε β} {e : ε}
    (h : (x >>= f) = .error e) : x = .error e ∨ ∃ a, f a = .error e := by
  rcases x with cause | a
  · cases h
    exact Or.inl rfl
  · exact Or.inr ⟨a, h⟩

theorem mapError_eq_ok {ε δ α : Type} {x : Except ε α} {f : ε → δ} {a : α}
    (h : x.mapError f = .ok a) : x = .ok a := by
  rcases x with e | b
  · cases h
  · cases h
    rfl

theorem mapError_eq_error {ε δ α : Type} {x : Except ε α} {f : ε → δ} {d : δ}
    (h : x.mapError f = .error d) : ∃ e, d = f e := by
  rcases x with e | a
  · cases h
    exact ⟨e, rfl⟩
  · cases h

namespace Options

variable {o : Options} {disk : Disk} {input : File} {environment : Option String} {f : Failure}

theorem settings_eq_error (h : o.settings disk environment = .error f) :
    ∃ path cause, f = .settings path cause := by
  rw [settings_eq] at h
  rcases hfile : o.fileSettings disk with g | base
  · rw [hfile] at h
    cases h
    simp only [fileSettings] at hfile
    split at hfile
    · rename_i path _
      exact ⟨path, mapError_eq_error hfile⟩
    · cases hfile
  · rw [hfile] at h
    cases h

theorem image_eq_error (h : o.image disk input = .error f) (e : CapacityExceeded) :
    f ≠ .load e := by
  simp only [Options.image] at h
  split at h
  · obtain ⟨cause, rfl⟩ := mapError_eq_error h
    simp
  · rcases bind_eq_error h with htext | ⟨text, hrest⟩
    · simp only [programText] at htext
      split at htext
      · obtain ⟨cause, rfl⟩ := mapError_eq_error htext
        simp
      · obtain ⟨cause, rfl⟩ := mapError_eq_error htext
        simp
    · rcases bind_eq_error hrest with hcompile | ⟨firmware, hdone⟩
      · obtain ⟨cause, rfl⟩ := mapError_eq_error hcompile
        simp
      · cases hdone
  · cases h
    simp

/-- The preparation of a session fails before anything is loaded. -/
theorem prepare_eq_error (h : o.prepare disk input environment = .error f)
    (e : CapacityExceeded) : f ≠ .load e := by
  rcases bind_eq_error h with hsettings | ⟨settings, hrest⟩
  · obtain ⟨path, cause, rfl⟩ := settings_eq_error hsettings
    simp
  · rcases bind_eq_error hrest with himage | ⟨image, hdisk⟩
    · exact image_eq_error himage e
    · rcases bind_eq_error hdisk with houtput | ⟨written, hdone⟩
      · simp only [outputDisk] at houtput
        split at houtput
        · obtain ⟨cause, rfl⟩ := mapError_eq_error houtput
          simp
        · cases houtput
      · cases hdone

/-- Whatever fails when the image is presented is the load. -/
theorem present_failure {settings : Settings} {image : Array UInt8}
    (h : (o.present settings image).2 = some f) : ∃ e, f = .load e := by
  simp only [present] at h
  split at h
  · cases h
  · split at h
    · cases h
    · rename_i g hrun
      cases h
      rcases bind_eq_error hrun with hload | ⟨loaded, hdone⟩
      · exact mapError_eq_error hload
      · cases hdone

theorem prepared_iff :
    (o.session disk input environment).Prepared ↔
      ∃ ready, o.prepare disk input environment = .ok ready := by
  rw [Transcript.Prepared, session_eq]
  rcases hprepare : o.prepare disk input environment with f | ⟨settings, image, written⟩
  · constructor
    · intro h
      obtain ⟨e, hload⟩ := h f rfl
      exact absurd hload (prepare_eq_error hprepare e)
    · rintro ⟨ready, hready⟩
      cases hready
  · constructor
    · intro _
      exact ⟨_, rfl⟩
    · intro _ f hf
      exact present_failure hf

end Options

/-! ### Running again -/

/-- The same options, but the image comes from a file, and nothing is to be written. -/
def Options.fromFile (path : String) (o : Options) : Options :=
  { o with ast := none, firmware := some path, output := none }

/-- A session that compiles a program and gets to write the firmware leaves exactly the code of the
    firmware in that file. A session with the same other options that takes its image from there
    prints the same and fails alike, whatever its standard input is. The settings must not be in
    that file, which has been written over. -/
theorem rerun_from_output {o : Options} {source target : String} (hast : o.ast = some source)
    (hfirmware : o.firmware = none) (houtput : o.output = some target)
    (hconfig : ∀ path, o.config = some path → pathSteps path ≠ pathSteps target)
    {disk : Disk} {input : File} {environment : Option String}
    (hprepared : (o.session disk input environment).Prepared) (other : File) :
    let first := o.session disk input environment
    let second := (o.fromFile target).session first.disk other environment
    (∃ text firmware, programText source disk input = .ok text ∧
        compileText text = .ok firmware ∧ first.disk.file target = ⟨some firmware.code⟩) ∧
      second.printed = first.printed ∧ second.failure = first.failure ∧
      second.status = first.status := by
  intro first second
  obtain ⟨⟨settings, image, written⟩, hready⟩ := Options.prepared_iff.mp hprepared
  obtain ⟨hsettings, himage, hdisk⟩ := Options.prepare_eq_ok.mp hready
  obtain ⟨text, firmware, htext, hcompile, rfl⟩ := (Options.image_eq_ok hast hfirmware).mp himage
  have hwrite : disk.write target firmware.code = .ok written := by
    rw [Options.outputDisk, houtput] at hdisk
    exact mapError_eq_ok hdisk
  have hfirst : first = ⟨(o.present settings firmware.code).1,
      (o.present settings firmware.code).2, written⟩ := by
    simp only [first, Options.session_eq, hready]
  have hfile : first.disk.file target = ⟨some firmware.code⟩ := by
    rw [hfirst]
    exact Disk.file_write hwrite
  -- The second session finds the same settings on the disk that the first one leaves.
  have hsame : (o.fromFile target).fileSettings first.disk = o.fileSettings disk := by
    rw [hfirst]
    simp only [Options.fileSettings, Options.fromFile]
    split
    · rename_i path hpath
      rw [Disk.file_write_of_ne hwrite (hconfig path hpath)]
    · rfl
  have hagain : (o.fromFile target).prepare first.disk other environment =
      .ok (settings, firmware.code, first.disk) := by
    refine Options.prepare_eq_ok.mpr ⟨?_, ?_, rfl⟩
    · rw [Options.settings_eq, hsame, ← hsettings, Options.settings_eq]
      rfl
    · simp only [Options.image, Options.fromFile, hfile]
      rfl
  have hsecond : second = first := by
    simp only [second, Options.session_eq, hagain]
    rw [hfirst]
    rfl
  rw [hsecond]
  exact ⟨⟨text, firmware, htext, hcompile, hfile⟩, rfl, rfl, rfl⟩

/-- A program that waits, on a board with settings of its own. -/
theorem rerun_from_output_wait :
    let o : Options :=
      { ast := some "wait.json", output := some "wait.bin", disasm := true, ticks := 2,
        config := some "board.json" }
    let disk : Disk :=
      .ofFiles [("wait.json", "[[\"Delay\",3]]".toUTF8.data), ("board.json", "[7]".toUTF8.data)]
    let first := o.session disk ⟨none⟩ none
    (∀ path, o.config = some path → pathSteps path ≠ pathSteps "wait.bin") ∧ first.Prepared ∧
      first.disk.file "wait.bin" = ⟨some #[22, 2, 3, 0]⟩ ∧
      ((o.fromFile "wait.bin").session first.disk ⟨none⟩ none).printed = first.printed := by
  intro o disk first
  have htext : programText "wait.json" disk ⟨none⟩ = .ok "[[\"Delay\",3]]" := by
    have hfile : disk.file "wait.json" = ⟨some "[[\"Delay\",3]]".toUTF8.data⟩ := rfl
    rw [programText, if_neg (by decide), hfile, text_toUTF8]
    rfl
  have hcompile : compileText "[[\"Delay\",3]]" = .ok ⟨#[22, 2, 3, 0], []⟩ := by
    have hcode : (Program.read? "[[\"Delay\",3]]").map Program.compile =
        some ⟨#[22, 2, 3, 0], []⟩ := by decide +kernel
    obtain ⟨p, hread, hcode⟩ := Option.map_eq_some_iff.mp hcode
    rw [compileText, Program.read, hread]
    exact congrArg Except.ok hcode
  have hsettings : o.settings disk none = .ok { stepsPerTick := 7 } := by
    have hfile : disk.file "board.json" = ⟨some "[7]".toUTF8.data⟩ := rfl
    have hread : Settings.ofFile (disk.file "board.json") = .ok { stepsPerTick := 7 } := by
      have hvalue : (Json.read? "[7]").bind Settings.ofJson? = some { stepsPerTick := 7 } := by
        decide +kernel
      rw [hfile, Settings.ofFile, text_toUTF8]
      show Settings.read "[7]" = _
      rw [Settings.read, hvalue]
    have hbase : o.fileSettings disk = .ok { stepsPerTick := 7 } := by
      rw [Options.fileSettings]
      simp only [o, hread]
      rfl
    rw [Options.settings_eq, hbase]
    rfl
  have himage : o.image disk ⟨none⟩ = .ok #[22, 2, 3, 0] :=
    (Options.image_eq_ok rfl rfl).mpr ⟨_, _, htext, hcompile, rfl⟩
  have hdirectory : pathSteps "wait.bin" ≠ [] ∧
      disk.hasDirectory (pathSteps "wait.bin").dropLast = true := by decide
  have hwritten : ∃ written, o.outputDisk disk #[22, 2, 3, 0] = .ok written := by
    simp only [o, Options.outputDisk, Disk.write, if_pos hdirectory]
    exact ⟨_, rfl⟩
  obtain ⟨written, hwritten⟩ := hwritten
  have hprepared : first.Prepared :=
    Options.prepared_iff.mpr ⟨_, Options.prepare_eq_ok.mpr ⟨hsettings, himage, hwritten⟩⟩
  have hconfig : ∀ path, o.config = some path → pathSteps path ≠ pathSteps "wait.bin" := by
    intro path hpath
    cases hpath
    decide
  obtain ⟨⟨text, firmware, hfound, hcompiled, hfile⟩, hprinted, -⟩ :=
    rerun_from_output rfl rfl rfl hconfig hprepared ⟨none⟩
  rw [htext] at hfound
  cases hfound
  rw [hcompile] at hcompiled
  cases hcompiled
  exact ⟨hconfig, hprepared, hfile, hprinted⟩

end Microboard.Console
