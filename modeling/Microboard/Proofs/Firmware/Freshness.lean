import Microboard.Proofs.Firmware.Pruning
import Microboard.Proofs.Firmware.Waypoints

/-!
# What is remembered of the pixel registers is never stale

The emitter remembers what the pixel registers hold and leaves out the code that would bring it
there again. Control gets to a place of the code on many ways, past bodies that are skipped and
through the jumps back of loops, and what is remembered has to be so on each of them. So every
waypoint of a program says what is known in front of it, and one instruction leads from a waypoint
to another whose assertion holds again (`Waypoint.Leads`). Hence it holds wherever a machine comes
to: `cache_never_stale`.
-/

namespace Microboard

open Instruction Waypoint

/-! ### What the registers show -/

/-- The scene that the registers and the panel show. -/
def Working.scene (w : Working) : Scene :=
  ⟨fun v => w.registers.get v.register, w.panel⟩

def Machine.scene (m : Machine) : Scene :=
  m.working.scene

/-- The pixel registers hold what the cache says. -/
def Fresh (cache : PixelCache) (w : Working) : Prop :=
  Shows cache w.scene w

theorem Shows.scene_eq {cache : PixelCache} {scene : Scene} {w : Working}
    (h : Shows cache scene w) : w.scene = scene := by
  have hvalue : (fun v : Variable => w.registers.get v.register) = scene.value :=
    funext h.value_eq
  rw [Working.scene, hvalue, h.panel_eq]

theorem Shows.fresh {cache : PixelCache} {scene : Scene} {w : Working}
    (h : Shows cache scene w) : Fresh cache w := by
  rw [Fresh, h.scene_eq]
  exact h

/-- Instructions that change no more than a scratch register or the outcome of a comparison. -/
def Instruction.Quiet : Instruction → Prop
  | .loadImmediate r _ => r ∈ scratchRegisters
  | .compare .. | .jump .. => True
  | _ => False

namespace Fresh

variable {cache known : PixelCache} {w : Working}

theorem empty (w : Working) : Fresh {} w := by
  refine ⟨fun v => rfl, ?_, rfl⟩
  intro axis value h
  cases axis <;> cases h

theorem weaken (h : Fresh cache w) (hknown : known.Within cache) : Fresh known w :=
  Shows.weaken h hknown

theorem workAll_code (h : Fresh cache w) (c : Command) :
    Fresh (c.cacheAfter cache) (workAll (c.code cache) w).1 :=
  (Command.workAll_code h c).1.fresh

theorem work_quiet (h : Fresh cache w) {i : Instruction} (hi : i.Quiet) :
    Fresh cache (i.work w).1 := by
  have hsame := Registers.SameBut.refl scratchRegisters w.registers
  cases i with
  | loadImmediate r value => exact (Shows.scratch h (hsame.set hi value)).fresh
  | compare r s => exact (Shows.scratch h hsame).fresh
  | jump condition target => exact h
  | _ => cases hi

theorem workAll_quiet {is : List Instruction} (hquiet : ∀ i ∈ is, i.Quiet) :
    ∀ {w : Working}, Fresh cache w → Fresh cache (workAll is w).1 := by
  induction is with
  | nil =>
    intro w h
    exact h
  | cons i is ih =>
    intro w h
    apply ih (fun j hj => hquiet j (List.mem_cons_of_mem i hj))
    exact h.work_quiet (hquiet i List.mem_cons_self)

end Fresh

/-- Nothing in front of the body of a conditional touches the pixel registers. -/
theorem quiet_test (left : Variable) (right : UInt8) (jumps : List Jump) :
    ∀ i ∈ testCode left right ++ jumps.map Jump.instruction, i.Quiet := by
  intro i hi
  rcases List.mem_append.mp hi with htest | hjump
  · simp only [testCode, List.mem_cons, List.not_mem_nil, or_false] at htest
    rcases htest with rfl | rfl
    · exact compare_mem_scratch
    · exact trivial
  · obtain ⟨j, -, rfl⟩ := List.mem_map.mp hjump
    exact trivial

theorem Coordinate.drawPixel_not_mem (x y : Coordinate) (cache : PixelCache) (r s : UInt8) :
    .drawPixel r s ∉ x.code cache .x ++ y.code (x.cacheAfter cache .x) .y := by
  have hcode : ∀ (c : Coordinate) (cache : PixelCache) (axis : Axis),
      .drawPixel r s ∉ c.code cache axis := by
    intro c cache axis
    rcases c with (v | value) | ⟨base, sign, amount⟩
    · simp [Coordinate.code]
    · simp [Coordinate.code]
    · cases sign <;> simp [Coordinate.code, Emitter.derivation, Emitter.applySign]
  rw [List.mem_append, not_or]
  exact ⟨hcode x _ _, hcode y _ _⟩

/-! ### From waypoint to waypoint -/

/-- What is worked on can be so at a waypoint: the instructions that are done were carried out where
    the pixel registers held what the cache says. -/
def Waypoint.Allows (t : Waypoint) (w : Working) : Prop :=
  ∃ before, Fresh t.cache before ∧ (workAll t.done before).1 = w

/-- At an address is a waypoint that allows what is worked on, or else the address is where all
    ends. -/
def Arrives (all : List Waypoint) (stop address : Nat) (w : Working) : Prop :=
  (∃ t ∈ all, t.offset = address ∧ t.Allows w) ∨ address = stop

/-- From whatever a waypoint allows, its instruction leads to a waypoint that allows the outcome. -/
def Waypoint.Leads (all : List Waypoint) (stop : Nat) (t : Waypoint) : Prop :=
  ∀ w, t.Allows w →
    Arrives all stop (t.instruction.next w.flag t.offset) (t.instruction.work w).1

section Ways

variable {code : List Instruction} {all : List Waypoint} {stop address : Nat} {cache : PixelCache}
  {s : Stage}

theorem Arrives.along {done is : List Instruction} {before : Working}
    (hsubset : row address cache done is ⊆ all) (hfresh : Fresh cache before)
    (hafter : Arrives all stop (address + size is) (workAll (done ++ is) before).1) :
    Arrives all stop address (workAll done before).1 := by
  cases is with
  | nil =>
    rw [List.append_nil] at hafter
    exact hafter
  | cons i is =>
    left
    exact ⟨_, hsubset List.mem_cons_self, rfl, before, hfresh, rfl⟩

/-- In a row, each instruction leads to the next, and the last one behind the row; where a jump
    leads elsewhere is shown for it alone. -/
theorem Waypoint.leads_row {is : List Instruction} : ∀ {address : Nat} {done : List Instruction},
    row address cache done is ⊆ all →
    (∀ before, Fresh cache before →
      Arrives all stop (address + size is) (workAll (done ++ is) before).1) →
    (∀ t ∈ row address cache done is, ∀ w, t.Allows w →
      t.instruction.next w.flag t.offset = t.offset + t.instruction.opcode.recordLength ∨
        Arrives all stop (t.instruction.next w.flag t.offset) (t.instruction.work w).1) →
    ∀ t ∈ row address cache done is, t.Leads all stop := by
  induction is with
  | nil =>
    intro address done _ _ _ t ht
    cases ht
  | cons i is ih =>
    intro address done hsubset hafter hnext t ht
    have htail : row (address + i.opcode.recordLength) cache (done ++ [i]) is ⊆ all :=
      fun u hu => hsubset (List.mem_cons_of_mem _ hu)
    have hbehind : ∀ before, Fresh cache before →
        Arrives all stop (address + i.opcode.recordLength + size is)
          (workAll (done ++ [i] ++ is) before).1 := by
      intro before hfresh
      have h := hafter before hfresh
      rwa [size_cons, ← Nat.add_assoc, ← List.singleton_append, ← List.append_assoc] at h
    rcases List.mem_cons.mp ht with rfl | hmem
    · intro w hw
      rcases hnext _ ht w hw with heq | harrives
      · obtain ⟨before, hfresh, rfl⟩ := hw
        have hdone : (workAll (done ++ [i]) before).1 = (i.work (workAll done before).1).1 := by
          rw [workAll_append]
          rfl
        rw [heq, ← hdone]
        exact Arrives.along htail hfresh (hbehind before hfresh)
      · exact harrives
    · exact ih htail hbehind (fun u hu => hnext u (List.mem_cons_of_mem _ hu)) t hmem

/-- The jump back of a loop is a waypoint that allows anything. -/
theorem Arrives.back {i : Instruction} (hsubset : row address {} [] [i] ⊆ all) (w : Working) :
    Arrives all stop address w := by
  left
  exact ⟨_, hsubset List.mem_cons_self, rfl, w, Fresh.empty w, rfl⟩

mutual

/-- Control can enter a command wherever the pixel registers hold what the cache says. -/
theorem Command.arrives {c : Command} {s : Stage} {address : Nat}
    (hsubset : c.waypoints s address ⊆ all)
    (hafter : ∀ w, Fresh (c.arrange s).2.cache w →
      Arrives all stop (address + (c.arrange s).1.size) w)
    {w : Working} (h : Fresh s.cache w) : Arrives all stop address w := by
  rcases c.straight_or_body with hc | ⟨left, comparison, right, body, rfl⟩ | ⟨body, rfl⟩
  · rw [hc.waypoints_eq] at hsubset
    rw [hc.size_eq, hc.cache_eq] at hafter
    show Arrives all stop address (workAll [] w).1
    exact Arrives.along hsubset h (hafter _ (h.workAll_code c))
  · left
    exact ⟨_, hsubset List.mem_cons_self, rfl, w, h, rfl⟩
  · obtain ⟨hfront, hback⟩ := List.append_subset.mp hsubset
    obtain ⟨hsetup, hbody⟩ := List.append_subset.mp hfront
    show Arrives all stop address (workAll [] w).1
    apply Arrives.along hsetup (Fresh.empty w)
    rw [← loopAddress_eq_add_size]
    exact Command.arrivesAll hbody (fun v _ => Arrives.back hback v) (Fresh.empty _)

theorem Command.arrivesAll {cs : List Command} {s : Stage} {address : Nat}
    (hsubset : Command.waypointsAll s address cs ⊆ all)
    (hafter : ∀ w, Fresh (Command.arrangeAll s cs).2.cache w →
      Arrives all stop (address + Block.sizeAll (Command.arrangeAll s cs).1) w)
    {w : Working} (h : Fresh s.cache w) : Arrives all stop address w := by
  cases cs with
  | nil => exact hafter w h
  | cons c rest =>
    obtain ⟨hfirst, hrest⟩ := List.append_subset.mp hsubset
    refine Command.arrives hfirst ?_ h
    intro v hv
    refine Command.arrivesAll hrest ?_ hv
    intro u hu
    rw [Nat.add_assoc]
    exact hafter u hu

end

/-- A plain instruction leads behind itself. -/
theorem Waypoint.leads_plain {is : List Instruction} (hplain : ∀ i ∈ is, i.Plain)
    (hsubset : row address cache [] is ⊆ all)
    (hafter : ∀ before, Fresh cache before →
      Arrives all stop (address + size is) (workAll is before).1) :
    ∀ t ∈ row address cache [] is, t.Leads all stop := by
  apply Waypoint.leads_row hsubset hafter
  intro t ht w _
  obtain ⟨front, rest, rfl, -, -, -⟩ := append_of_mem_row ht
  left
  exact next_of_plain (hplain t.instruction (by simp)) w.flag t.offset

theorem eq_always_of_mem_setup {first : Bool} {i : Instruction}
    (h : i ∈ (setupJumps address first).map Jump.instruction) :
    i = .jump .always (UInt8.ofNat (loopAddress address first)) := by
  cases first with
  | true => exact List.mem_singleton.mp h
  | false => cases h

/-- A jump that is always taken leads to its target. -/
theorem Waypoint.leads_always {is : List Instruction} {start : Nat}
    (hjumps : ∀ i ∈ is, i = .jump .always (UInt8.ofNat start))
    (hfits : (UInt8.ofNat start).toNat = start) (hstart : ∀ w, Arrives all stop start w) :
    ∀ t ∈ row address cache [] is, t.Leads all stop := by
  intro t ht w _
  obtain ⟨front, rest, rfl, -, -, -⟩ := append_of_mem_row ht
  rw [hjumps t.instruction (by simp)]
  show Arrives all stop (UInt8.ofNat start).toNat w
  rw [hfits]
  exact hstart w

theorem Block.Settled.skip_target {left : Variable} {comparison : Comparison} {right : UInt8}
    {body : List Block} (h : (Block.branch left comparison right body).Settled code address)
    {condition : Condition} {target : UInt8}
    (hmem : .jump condition target ∈ testCode left right
      ++ (skipJumps address left comparison right body).map Jump.instruction) :
    target.toNat = bodyAddress address left comparison right + Block.sizeAll body := by
  rcases List.mem_append.mp hmem with htest | hskip
  · simp [testCode] at htest
  · obtain ⟨j, hj, hinstruction⟩ := List.mem_map.mp hskip
    cases hinstruction
    rw [← Jump.target_of_mem_row hj]
    exact Jump.toNat_target (h.2 j (List.mem_append_left _ hj))

/-- In front of the body of a conditional, control goes on to the body, or past it. -/
theorem Waypoint.leads_test {left : Variable} {comparison : Comparison} {right : UInt8}
    {body : List Block} (hsettled : (Block.branch left comparison right body).Settled code address)
    (hsubset : row address cache [] (testCode left right
      ++ (skipJumps address left comparison right body).map Jump.instruction) ⊆ all)
    (hbody : ∀ w, Fresh cache w → Arrives all stop (bodyAddress address left comparison right) w)
    (hpast : ∀ w, Fresh cache w →
      Arrives all stop (bodyAddress address left comparison right + Block.sizeAll body) w) :
    ∀ t ∈ row address cache [] (testCode left right
      ++ (skipJumps address left comparison right body).map Jump.instruction),
      t.Leads all stop := by
  have hquiet := quiet_test left right (skipJumps address left comparison right body)
  apply Waypoint.leads_row hsubset
  · intro before hfresh
    rw [← bodyAddress_eq_add_size]
    exact hbody _ (hfresh.workAll_quiet hquiet)
  · intro t ht w hw
    obtain ⟨front, rest, hcode, -, hcache, hdone⟩ := append_of_mem_row ht
    rcases t.instruction.next_cases w.flag t.offset with hnext | ⟨condition, target, hjump, hnext⟩
    · exact Or.inl hnext
    · right
      obtain ⟨before, hfresh, rfl⟩ := hw
      rw [hcache] at hfresh
      have hreached : Fresh cache (workAll t.done before).1 := by
        apply hfresh.workAll_quiet
        intro i hi
        rw [hdone, List.nil_append] at hi
        exact hquiet i (hcode ▸ List.mem_append_left _ hi)
      have hmem : t.instruction ∈ testCode left right
          ++ (skipJumps address left comparison right body).map Jump.instruction := by
        rw [hcode]
        simp
      rw [hjump] at hmem
      rw [hnext, hsettled.skip_target hmem, hjump]
      exact hpast _ hreached

mutual

/-- Each instruction of a command leads to a waypoint, if control can go on behind the command. -/
theorem Command.leads {c : Command} {s : Stage} {address : Nat}
    (hsettled : (c.arrange s).1.Settled code address) (hsubset : c.waypoints s address ⊆ all)
    (hafter : ∀ w, Fresh (c.arrange s).2.cache w →
      Arrives all stop (address + (c.arrange s).1.size) w) :
    ∀ t ∈ c.waypoints s address, t.Leads all stop := by
  rcases c.straight_or_body with hc | ⟨left, comparison, right, body, rfl⟩ | ⟨body, rfl⟩
  · rw [hc.waypoints_eq] at hsubset ⊢
    rw [hc.size_eq, hc.cache_eq] at hafter
    exact Waypoint.leads_plain (c.code_plain s.cache) hsubset
      (fun before hfresh => hafter _ (hfresh.workAll_code c))
  · obtain ⟨htest, hbody⟩ := List.append_subset.mp hsubset
    simp only [Command.arrange] at hsettled hafter
    rw [Block.size, ← Nat.add_assoc, ← bodyAddress_eq] at hafter
    -- What is known behind the conditional holds after its body and after the skips.
    have hend : ∀ w, Fresh (Command.arrangeAll s body).2.cache w → Arrives all stop
        (bodyAddress address left comparison right
          + Block.sizeAll (Command.arrangeAll s body).1) w :=
      fun w hw => hafter w (hw.weaken (PixelCache.Within.agreement_left _ _))
    have hskip : ∀ w, Fresh s.cache w → Arrives all stop
        (bodyAddress address left comparison right
          + Block.sizeAll (Command.arrangeAll s body).1) w :=
      fun w hw => hafter w (hw.weaken (PixelCache.Within.agreement_right _ _))
    intro t ht
    rcases List.mem_append.mp ht with hfirst | hinside
    · exact Waypoint.leads_test hsettled htest
        (fun w hw => Command.arrivesAll hbody hend hw) hskip t hfirst
    · exact Command.leadsAll hsettled.branchBody hbody hend t hinside
  · obtain ⟨hfront, hback⟩ := List.append_subset.mp hsubset
    obtain ⟨hsetup, hbody⟩ := List.append_subset.mp hfront
    -- The start of the loop allows anything.
    have hstart : ∀ w, Arrives all stop (loopAddress address !s.setupEnded) w :=
      fun w => Command.arrivesAll hbody (fun v _ => Arrives.back hback v) (Fresh.empty w)
    intro t ht
    rcases List.mem_append.mp ht with hbefore | hlast
    · rcases List.mem_append.mp hbefore with hfirst | hinside
      · refine Waypoint.leads_always ?_ hsettled.start_fits hstart t hfirst
        intro i hi
        exact eq_always_of_mem_setup hi
      · exact Command.leadsAll hsettled.loopBody hbody (fun v _ => Arrives.back hback v) t hinside
    · refine Waypoint.leads_always ?_ hsettled.start_fits hstart t hlast
      intro i hi
      exact List.mem_singleton.mp hi

theorem Command.leadsAll {cs : List Command} {s : Stage} {address : Nat}
    (hsettled : Block.SettledAll code address (Command.arrangeAll s cs).1)
    (hsubset : Command.waypointsAll s address cs ⊆ all)
    (hafter : ∀ w, Fresh (Command.arrangeAll s cs).2.cache w →
      Arrives all stop (address + Block.sizeAll (Command.arrangeAll s cs).1) w) :
    ∀ t ∈ Command.waypointsAll s address cs, t.Leads all stop := by
  cases cs with
  | nil =>
    intro t ht
    cases ht
  | cons c rest =>
    intro t ht
    obtain ⟨hfirst, hrest⟩ := List.append_subset.mp hsubset
    have hbehind : ∀ w, Fresh (Command.arrangeAll (c.arrange s).2 rest).2.cache w →
        Arrives all stop (address + (c.arrange s).1.size
          + Block.sizeAll (Command.arrangeAll (c.arrange s).2 rest).1) w := by
      intro w hw
      rw [Nat.add_assoc]
      exact hafter w hw
    rcases List.mem_append.mp ht with hhere | hlater
    · exact Command.leads hsettled.head hfirst
        (fun w hw => Command.arrivesAll hrest hbehind hw) t hhere
    · exact Command.leadsAll hsettled.tail hrest hbehind t hlater

end

end Ways

namespace Program

variable (p : Program)

theorem arrives_start (w : Working) : Arrives p.waypoints (size p.code) 0 w :=
  Command.arrivesAll (List.Subset.refl _) (fun _ _ => Or.inr p.stop_eq) (Fresh.empty w)

variable (hoverflow : overflowsOf p.compile.diagnostics = [])
include hoverflow

/-- Without an overflow, every instruction of a program's code leads from waypoint to waypoint. -/
theorem leads : ∀ t ∈ p.waypoints, t.Leads p.waypoints (size p.code) :=
  Command.leadsAll (p.settled hoverflow) (List.Subset.refl _) (fun _ _ => Or.inr p.stop_eq)

theorem lies : ∀ v ∈ Statement.visitsAll {} p, Lies p.code p.waypoints v.1 v.2 :=
  Lies.visitsAll (p.settled hoverflow) (List.Subset.refl _)

end Program

theorem Statement.resolve_pixel {x y : Expression}
    (h : (Statement.pixel x y).expressible) :
    ∃ a b, Coordinate.resolve x = .ok a ∧ Coordinate.resolve y = .ok b ∧
      (Statement.pixel x y).resolve = .pixel a b := by
  rw [expressible, Bool.and_eq_true] at h
  rcases Coordinate.resolve_cases x with ⟨-, a, ha⟩ | ⟨hnot, -⟩
  · rcases Coordinate.resolve_cases y with ⟨-, b, hb⟩ | ⟨hnot, -⟩
    · exact ⟨a, b, ha, hb, by rw [resolve, ha, hb]; rfl⟩
    · rw [hnot] at h
      cases h.2
  · rw [hnot] at h
    cases h.1

/-! ### A machine on its way -/

namespace Machine

/-- The machine is at a waypoint of the program that allows what it works on, or behind the code. -/
structure Accounted (p : Program) (m : Machine) : Prop where
  holds : m.flash.Holds p.code
  arrived : ∃ address, m.pc = addressOf address ∧
    Arrives p.waypoints (size p.code) address m.working

namespace Accounted

variable {p : Program} {m : Machine} {offset : Nat}

theorem arrives_at (h : Accounted p m) (hoffset : m.offset? = some offset) :
    m.pc = addressOf offset ∧ Arrives p.waypoints (size p.code) offset m.working := by
  obtain ⟨address, hpc, harrives⟩ := h.arrived
  have hle : address ≤ size p.code := by
    rcases harrives with ⟨t, ht, rfl, -⟩ | rfl
    · have hend := (mem_placed_lt (p.place_mem ht)).2
      omega
    · exact Nat.le_refl _
  have hsame : address = offset := by
    rw [Machine.offset?, hpc, offset?_addressOf (Nat.le_trans hle h.holds.fits)] at hoffset
    exact Option.some.inj hoffset
  rw [← hsame]
  exact ⟨hpc, harrives⟩

/-- Where the machine finds an instruction, it is that of a waypoint. -/
theorem waypoint_of_record (h : Accounted p m) (hoffset : m.offset? = some offset)
    {i : Instruction} {length : UInt8} (hrecord : m.flash.record offset = .ok (i, length)) :
    ∃ t ∈ p.waypoints, t.offset = offset ∧ t.instruction = i ∧ t.Allows m.working ∧
      i.Compiled ∧ length = UInt8.ofNat i.opcode.operandSize := by
  obtain ⟨-, ⟨t, ht, rfl, hallows⟩ | rfl⟩ := h.arrives_at hoffset
  · obtain ⟨before, behind, hcode, hsize⟩ := append_of_mem_placed (p.place_mem ht)
    have hcompiled : t.instruction.Compiled := p.code_compiled _ (by simp [hcode])
    have hholds := h.holds
    rw [hcode] at hholds
    rw [hsize, Nat.zero_add, hholds.record_of_append hcompiled.addressable] at hrecord
    cases hrecord
    exact ⟨t, ht, rfl, rfl, hallows, hcompiled, rfl⟩
  · rw [h.holds.record_size] at hrecord
    cases hrecord

theorem step (hoverflow : overflowsOf p.compile.diagnostics = []) (h : Accounted p m) :
    Accounted p m.step.machine := by
  rcases m.step_cases with ⟨-, hs⟩ | ⟨-, -, hs⟩ | ⟨offset, cause, -, -, -, hs⟩ |
    ⟨offset, i, length, hlive, -, hrecord, hs⟩
  · rw [hs]
    exact ⟨h.holds, h.arrived⟩
  · rw [hs]
    exact ⟨h.holds, h.arrived⟩
  · rw [hs]
    exact ⟨h.holds, h.arrived⟩
  · obtain ⟨-, hoffset, -⟩ := live?_eq_some_iff.mp hlive
    obtain ⟨hpc, -⟩ := h.arrives_at hoffset
    obtain ⟨t, ht, rfl, rfl, hallows, hcompiled, rfl⟩ := h.waypoint_of_record hoffset hrecord
    obtain ⟨-, hflash, -, -, -, -, -⟩ := m.execute_frame t.instruction
    obtain ⟨hworking, -⟩ := execute_working hcompiled m
    rw [hs, retire_canonical hpc]
    refine ⟨?_, _, rfl, ?_⟩
    · show (m.execute t.instruction).1.flash.Holds p.code
      rw [hflash]
      exact h.holds
    · show Arrives _ _ _ (m.execute t.instruction).1.working
      rw [hworking]
      exact p.leads hoverflow t ht m.working hallows

theorem allows (h : Accounted p m) {t : Waypoint} (ht : t ∈ p.waypoints)
    (hoffset : m.offset? = some t.offset) : t.Allows m.working := by
  obtain ⟨-, ⟨u, hu, hsame, hallows⟩ | hstop⟩ := h.arrives_at hoffset
  · rwa [p.waypoint_unique hu ht hsame] at hallows
  · have hend := (mem_placed_lt (p.place_mem ht)).2
    have hpos := recordLength_pos t.instruction.opcode
    omega

section Pixel

variable {e : Emitter} {x y : Coordinate}
  (hsubset : Command.waypoints e.stage e.address (.pixel x y) ⊆ p.waypoints)
include hsubset

/-- At the start of the code of a pixel, the pixel registers hold what the emitter remembered. -/
theorem fresh_at_pixel (h : Accounted p m) (hoffset : m.offset? = some e.address) :
    Fresh e.cache m.working := by
  obtain ⟨i, is, hcode⟩ : ∃ i is, Command.code e.cache (.pixel x y) = i :: is :=
    List.exists_cons_of_ne_nil (by simp [Command.code])
  have hmem : ⟨e.address, i, e.cache, []⟩ ∈ p.waypoints := by
    apply hsubset
    show _ ∈ row e.address e.cache [] (Command.code e.cache (.pixel x y))
    rw [hcode]
    exact List.mem_cons_self
  obtain ⟨before, hfresh, rfl⟩ := h.allows hmem hoffset
  exact hfresh

/-- Where a pixel is about to be drawn, the registers that it is drawn from hold the values of its
    coordinates. -/
theorem coordinates_at_drawing
    (hstands : Stands p.code e.address (Command.code e.cache (.pixel x y)))
    (h : Accounted p m) (hoffset : m.offset? = some offset) (hle : e.address ≤ offset)
    (hlt : offset < e.address + size (Command.code e.cache (.pixel x y))) {r s length : UInt8}
    (hrecord : m.flash.record offset = .ok (.drawPixel r s, length)) :
    m.registers.get r = m.scene.coordinate x ∧ m.registers.get s = m.scene.coordinate y := by
  obtain ⟨t, ht, rfl, hdraws, ⟨before, hfresh, hworking⟩, -, -⟩ :=
    h.waypoint_of_record hoffset hrecord
  have hmem : t ∈ row e.address e.cache [] (Command.code e.cache (.pixel x y)) := by
    have hplaced := hstands.mem_placed (p.place_mem ht) hle hlt
    rw [← map_place_row e.cache _ e.address []] at hplaced
    obtain ⟨u, hu, hplace⟩ := List.mem_map.mp hplaced
    rwa [p.waypoint_unique (hsubset hu) ht (Prod.mk.inj hplace).1] at hu
  obtain ⟨front, rest, hcode, -, hcache, hdone⟩ := append_of_mem_row hmem
  rw [hdraws] at hcode
  -- The code of the coordinates draws nothing, so it is all that is done.
  obtain ⟨rfl, hregisters, -⟩ :=
    (List.append_cons_inj_of_notMem (x.drawPixel_not_mem y e.cache r s) List.not_mem_nil).mp hcode
  cases hregisters
  rw [hcache] at hfresh
  rw [hdone, List.nil_append] at hworking
  obtain ⟨hshows, -, hx, hy⟩ := Command.workAll_coordinates hfresh x y
  rw [hworking] at hshows hx hy
  have hscene : m.scene = before.scene := hshows.scene_eq
  rw [hscene]
  exact ⟨hx, hy⟩

end Pixel

end Accounted

theorem accounted_of_load (p : Program) (hfits : p.compile.code.size ≤ flashCapacity)
    (m : Machine) : ∃ loaded, m.load p.compile.code = .ok loaded ∧ Accounted p loaded := by
  obtain ⟨flash, hload, hat⟩ := exists_at_start (toList_compile_code p) hfits m
  exact ⟨m.withFlash flash, hload, hat.holds, 0, rfl, p.arrives_start _⟩

/-- Let firmware without an overflow that fits into flash be loaded into any machine, let the host
    only drive the machine, and take any pixel of the program that can be expressed, with the
    emitter that came to it. The firmware carries the code that the emitter appended for it.
    Whenever the program counter has come to the start of this code, the pixel registers hold what
    the emitter remembered of them. Whenever this code draws, it draws the pixel whose coordinates
    are the values that its two expressions have at that moment. -/
theorem cache_never_stale (p : Program) (hoverflow : overflowsOf p.compile.diagnostics = [])
    (hfits : p.compile.code.size ≤ flashCapacity) (m : Machine) :
    ∃ loaded, m.load p.compile.code = .ok loaded ∧
      ∀ e x y, (e, .pixel x y) ∈ Statement.visitsAll {} p → (Statement.pixel x y).expressible →
        let lowered := (Statement.pixel x y).resolve.lower e
        lowered.code.toList.drop e.address <+: p.compile.code.toList.drop e.address ∧
        ∀ (history : List Operation) (k : Nat), (∀ op ∈ history, op.Drives) →
          let here := (loaded.performAll history).after k
          (here.offset? = some e.address → ∀ axis value, e.cache.get axis = some value →
            here.registers.get axis.register =
              match value.sign with
              | .plus => here.registers.get value.base.register + value.amount
              | .minus => here.registers.get value.base.register - value.amount) ∧
          ∀ offset pc r s jumped, here.offset? = some offset → e.address ≤ offset →
            offset < lowered.address →
            here.step.outcome = .ok (.executed pc (.drawPixel r s) jumped) →
              ∃ a b, here.scene.coordinate? x = some a ∧ here.scene.coordinate? y = some b ∧
                here.step.events = [.pixel a b] := by
  obtain ⟨loaded, hload, haccounted⟩ := accounted_of_load p hfits m
  refine ⟨loaded, hload, ?_⟩
  intro e x y hvisit hexpressible lowered
  obtain ⟨a, b, hx, hy, hresolve⟩ := Statement.resolve_pixel hexpressible
  obtain ⟨hsettled, hsubset⟩ := p.lies hoverflow _ hvisit
  rw [hresolve] at hsettled hsubset
  have hstands : Stands p.code e.address (Command.code e.cache (.pixel a b)) := hsettled.1
  have hlowered : lowered = e.extend [.straight (Command.code e.cache (.pixel a b))]
      { e.stage with cache := Command.cacheAfter e.cache (.pixel a b) } := by
    simp only [lowered, hresolve]
    exact Command.lower_eq e (.pixel a b)
  have hstep : ∀ n, Accounted p n → Accounted p n.step.machine := fun n hn => hn.step hoverflow
  constructor
  · have hcode : Block.codeAll e.address [.straight (Command.code e.cache (.pixel a b))] =
        Command.code e.cache (.pixel a b) := List.append_nil _
    have hdrop : lowered.code.toList.drop e.address =
        bytes (Command.code e.cache (.pixel a b)) := by
      rw [hlowered, Emitter.toList_extend, hcode]
      exact List.drop_left
    rw [hdrop, toList_compile_code]
    exact hstands.bytes_prefix
  · intro history k hhistory here
    have hhere : Accounted p here := drive_after hstep (fun _ hn => ⟨hn.holds, hn.arrived⟩)
      (fun _ hn => ⟨hn.holds, hn.arrived⟩) hhistory k haccounted
    constructor
    · intro hoffset axis value hvalue
      exact (hhere.fresh_at_pixel hsubset hoffset).cached axis value hvalue
    · intro offset pc r s jumped hoffset hle hlt houtcome
      obtain ⟨_, length, hlive, hrecord, hs, -, -⟩ := retire_of_executed houtcome
      obtain ⟨-, hsame, -⟩ := live?_eq_some_iff.mp hlive
      cases Option.some.inj (hoffset.symm.trans hsame)
      rw [hlowered, Emitter.address_extend] at hlt
      obtain ⟨hr, hs'⟩ :=
        hhere.coordinates_at_drawing hsubset hstands hoffset hle hlt hrecord
      refine ⟨here.scene.coordinate a, here.scene.coordinate b, ?_, ?_, ?_⟩
      · rw [Coordinate.resolve_eq, hx]
      · rw [Coordinate.resolve_eq, hy]
      · obtain ⟨_, _, hretire⟩ := here.retire_eq (.drawPixel r s) length
        rw [hs, hretire, ← hr, ← hs']
        rfl

/-- A pixel whose column is computed for the pixel in front of it, and held. -/
theorem cache_never_stale_reused :
    let column : Expression := .shifted "x" .plus 1
    let p : Program := [.declare "x" 3, .pixel column (.literal 7), .pixel column (.name "y")]
    let e := lowerAll {} (Statement.resolveAll [.declare "x" 3, .pixel column (.literal 7)])
    overflowsOf p.compile.diagnostics = [] ∧ p.compile.code.size ≤ flashCapacity ∧
      (e, .pixel column (.name "y")) ∈ Statement.visitsAll {} p ∧
      e.cache = { x := some ⟨.x, .plus, 1⟩ } ∧
      ∃ loaded k, (Machine.new {}).load p.compile.code = .ok loaded ∧
        let here := loaded.start.after k
        here.offset? = some e.address ∧
          here.registers.get Axis.x.register = here.registers.get Variable.x.register + 1 ∧
          ∃ a b, here.scene.coordinate? column = some a ∧
            here.scene.coordinate? (.name "y") = some b ∧ here.step.events = [.pixel a b] := by
  intro column p e
  have hoverflow : overflowsOf p.compile.diagnostics = [] := by decide
  have hfits : p.compile.code.size ≤ flashCapacity := by decide
  have hvisit : (e, .pixel column (.name "y")) ∈ Statement.visitsAll {} p :=
    List.mem_cons_of_mem _ (List.mem_cons_of_mem _ List.mem_cons_self)
  have hcache : e.cache = { x := some ⟨.x, .plus, 1⟩ } := by decide
  refine ⟨hoverflow, hfits, hvisit, hcache, ?_⟩
  obtain ⟨loaded, hload, hpixels⟩ := cache_never_stale p hoverflow hfits (Machine.new {})
  obtain ⟨flash, hflash, hat⟩ := exists_at_start (toList_compile_code p) hfits (Machine.new {})
  cases hload.symm.trans hflash
  -- The code in front of the second pixel is straight.
  obtain ⟨front, hfront⟩ : ∃ front, front = Command.code {} (.load .x 3)
      ++ Command.code {} (.pixel (.shifted ⟨.x, .plus, 1⟩) (.plain (.literal 7))) := ⟨_, rfl⟩
  have hplain : ∀ i ∈ front, i.Plain := by
    rw [hfront]
    intro i hi
    rcases List.mem_append.mp hi with hload | hpixel
    · exact Command.code_plain _ _ i hload
    · exact Command.code_plain _ _ i hpixel
  have hcode : p.code = front ++ [.drawPixel 1 6] := by
    rw [hfront]
    rfl
  have hstands : Stands p.code 0 front := ⟨[], [.drawPixel 1 6], hcode, rfl⟩
  obtain ⟨k, -, hreaches⟩ := hat.reaches_straight hplain hstands
  have haddress : e.address = size front := by
    rw [hfront]
    decide
  have hhere : (((Machine.new {}).withFlash flash).start.after k).At p.code (size front) := by
    have h := hreaches.here
    rwa [Nat.zero_add] at h
  have hlt : size front < flashCapacity := by
    rw [← haddress]
    decide
  have hoffset : (((Machine.new {}).withFlash flash).start.after k).offset? = some e.address := by
    rw [Machine.offset?, hhere.pc_eq, haddress]
    exact offset?_addressOf (Nat.le_of_lt hlt)
  have hcompiled : (Instruction.drawPixel 1 6).Compiled := p.code_compiled _ (by simp [hcode])
  have hstep := hhere.step_eq hcode hlt hcompiled.addressable
  have hdrives : ∀ op ∈ [Operation.start], op.Drives := by simp [Operation.Drives]
  obtain ⟨-, hdriven⟩ := hpixels e column (.name "y") hvisit (by decide)
  obtain ⟨hcached, hdrawn⟩ := hdriven [.start] k hdrives
  refine ⟨_, k, hload, hoffset, ?_, ?_⟩
  · exact hcached hoffset .x ⟨.x, .plus, 1⟩ (by rw [hcache]; rfl)
  · have houtcome := (congrArg Step.outcome hstep).trans (retire_outcome _ _ _)
    exact hdrawn e.address _ _ _ _ hoffset (Nat.le_refl _) (by decide) houtcome

end Machine

end Microboard
