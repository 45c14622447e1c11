import Microboard.Proofs.Firmware.Control

/-!
# Firmware does what its program means

`compile_preserves` compares a board that runs the firmware of a program with the evaluation of the
program. The board never shows anything that the program does not show, it shows everything in the
end, and it stops if and only if the program comes to its end. `Follows` is the simulation relation;
every step of the program is matched by steps of the board.
-/

namespace Microboard

open Instruction Machine

/-! ### The simulation -/

/-- A machine follows a situation: it tracks the commands of its statements in its scene. -/
def Follows (code : List Instruction) (s : Situation) (m : Machine) (bound : Nat) : Prop :=
  Tracks code (Statement.resolveAll s.rest) s.scene m bound

namespace Follows

variable {code : List Instruction} {s : Situation} {m : Machine} {bound : Nat}

theorem step (h : Follows code s m bound) {next : Situation} {events : List Event}
    (hstep : s.step? = some (next, events)) :
    ∃ k ν, Follows code next (m.after k) ν ∧ m.emitted k = events ∧ (1 ≤ k ∨ ν < bound) := by
  rcases s.step?_cases with ⟨-, hnone⟩ | ⟨c, rest, next', events', hcommands, hsome, hrest, heffect⟩
  · rw [hnone] at hstep
    cases hstep
  · rw [hsome] at hstep
    cases hstep
    obtain ⟨hscene, hevents⟩ := Prod.mk.inj heffect
    unfold Follows at h
    rw [hcommands] at h
    obtain ⟨k, ν, htracks, hemitted, hprogress⟩ := h.step
    refine ⟨k, ν, ?_, hemitted.trans hevents.symm, hprogress⟩
    unfold Follows
    rw [hrest, hscene]
    exact htracks

/-- The machine gets to where the program is after any number of steps, with the same events. -/
theorem steps (n : Nat) : ∀ {s : Situation} {m : Machine} {bound : Nat}, Follows code s m bound →
    ∃ k ν, Follows code (s.after n) (m.after k) ν ∧ m.emitted k = s.trace n := by
  induction n with
  | zero =>
    intro s m bound h
    exact ⟨0, bound, h, rfl⟩
  | succ n ih =>
    intro s m bound h
    cases hstep : s.step? with
    | none =>
      refine ⟨0, bound, ?_, ?_⟩
      · rw [Situation.after_of_end hstep]
        exact h
      · rw [Situation.trace_of_end hstep]
        rfl
    | some taken =>
      obtain ⟨k, ν, hnext, hevents, -⟩ := h.step hstep
      obtain ⟨l, ξ, hrest, htrace⟩ := ih hnext
      refine ⟨k + l, ξ, ?_, ?_⟩
      · rw [after_add, Situation.after, hstep]
        exact hrest
      · rw [emitted_add, Situation.trace, hstep, hevents, htrace]

/-- Unless the program ends, the machine takes a step sooner or later. -/
theorem moves : ∀ {bound : Nat} {s : Situation} {m : Machine}, Follows code s m bound →
    (∃ n, (s.after n).rest = []) ∨
      ∃ n k ν, 1 ≤ k ∧ Follows code (s.after n) (m.after k) ν ∧ m.emitted k = s.trace n := by
  intro bound
  induction bound using Nat.strongRecOn with
  | ind bound ih =>
    intro s m h
    rcases s.step?_cases with ⟨hend, -⟩ | ⟨c, rest, next, events, -, hstep, -, -⟩
    · exact Or.inl ⟨0, hend⟩
    · obtain ⟨k, ν, hnext, hevents, hprogress⟩ := h.step hstep
      have hafter : s.after 1 = next := by
        rw [Situation.after, hstep]
        rfl
      have htrace : s.trace 1 = events := by
        rw [Situation.trace, hstep]
        exact List.append_nil events
      rcases hprogress with hk | hν
      · exact Or.inr ⟨1, k, ν, hk, by rwa [hafter], by rw [hevents, htrace]⟩
      · rcases ih ν hν hnext with ⟨n, hend⟩ | ⟨n, l, ξ, hl, hrest, hmore⟩
        · exact Or.inl ⟨1 + n, by rwa [Situation.after_add, hafter]⟩
        · refine Or.inr ⟨1 + n, k + l, ξ, by omega, ?_, ?_⟩
          · rwa [after_add, Situation.after_add, hafter]
          · rw [emitted_add, Situation.trace_add, hafter, htrace, hevents, hmore]

/-- Unless the program ends, the machine takes any number of steps. -/
theorem unbounded (h : Follows code s m bound) (steps : Nat) :
    (∃ n, (s.after n).rest = []) ∨
      ∃ n k ν, steps ≤ k ∧ Follows code (s.after n) (m.after k) ν ∧ m.emitted k = s.trace n := by
  induction steps with
  | zero => exact Or.inr ⟨0, 0, bound, Nat.le_refl 0, h, rfl⟩
  | succ steps ih =>
    rcases ih with hend | ⟨n, k, ν, hk, hreached, htrace⟩
    · exact Or.inl hend
    · rcases hreached.moves with ⟨n', hend⟩ | ⟨n', l, ξ, hl, hrest, hmore⟩
      · exact Or.inl ⟨n + n', by rwa [Situation.after_add]⟩
      · refine Or.inr ⟨n + n', k + l, ξ, by omega, ?_, ?_⟩
        · rwa [after_add, Situation.after_add]
        · rw [emitted_add, Situation.trace_add, htrace, hmore]

theorem at_end (h : Follows code s m bound) (hend : s.rest = []) :
    m.At code (size code) ∧ ∃ cache, Shows cache s.scene m.working := by
  obtain ⟨address, cache, hat, hshows, hcontinues⟩ := h
  rw [hend] at hcontinues
  cases hcontinues with
  | stop => exact ⟨hat, cache, hshows⟩

end Follows

/-! ### The end -/

/-- At the end of its code a machine stops in one step, and stays as it is. -/
theorem Machine.At.after_end {code : List Instruction} {m : Machine} (h : m.At code (size code))
    (k : Nat) :
    (m.after (k + 1)).running = false ∧ (m.after (k + 1)).working = m.working ∧
      m.emitted (k + 1) = [] ∧
      (m.after (k + 1)).fault =
        if size code < flashCapacity then some (endFault code) else none := by
  by_cases hlt : size code < flashCapacity
  · have hstep := h.step_of_lt hlt
    have hoff : m.step.machine.running = false := by rw [hstep]
    rw [after, emitted, after_of_off hoff, emitted_of_off hoff, hstep, if_pos hlt]
    exact ⟨rfl, rfl, rfl, rfl⟩
  · have hfull : size code = flashCapacity := Nat.le_antisymm h.holds.fits (Nat.le_of_not_lt hlt)
    have hstep := h.step_of_full hfull
    have hoff : m.step.machine.running = false := by
      rw [hstep]
      rfl
    rw [after, emitted, after_of_off hoff, emitted_of_off hoff, hstep, if_neg hlt]
    exact ⟨rfl, rfl, rfl, h.fault_eq⟩

/-! ### Programs and their firmware -/

/-- A machine presents a scene: its panel is in the same state, and the variables have the same
    values. -/
structure Machine.Presents (m : Machine) (scene : Scene) : Prop where
  panel_eq : m.panel = scene.panel
  value_eq : ∀ v : Variable, m.registers.get v.register = scene.value v

theorem Shows.presents {cache : PixelCache} {scene : Scene} {m : Machine}
    (h : Shows cache scene m.working) : m.Presents scene :=
  ⟨h.panel_eq, h.value_eq⟩

theorem Follows.presents {code : List Instruction} {s : Situation} {m : Machine} {bound : Nat}
    (h : Follows code s m bound) : m.Presents s.scene := by
  obtain ⟨_, _, _, hshows, _⟩ := h
  exact hshows.presents

/-- From its start, firmware without an overflow goes on with all commands of its program. -/
theorem Program.continues (p : Program) (hoverflow : overflowsOf p.compile.diagnostics = []) :
    Continues p.code 0 {} (Program.commands p) (Command.weightAll (Program.commands p)) := by
  have hstop : Continues p.code (0 + Block.sizeAll p.blocks)
      (Command.arrangeAll {} (Program.commands p)).2.cache [] 0 := by
    rw [p.stop_eq]
    exact .stop
  have h := Continues.prepend (Program.commands p) (p.settled hoverflow) hstop
  rwa [List.append_nil] at h

/-- A machine that has loaded the firmware of a program follows the program once it is switched
    on. -/
theorem Program.follows_start (p : Program) (hoverflow : overflowsOf p.compile.diagnostics = [])
    (hfits : p.compile.code.size ≤ flashCapacity) (m : Machine) :
    ∃ loaded bound, m.load p.compile.code = .ok loaded ∧
      Follows p.code (Situation.initial p m.panel.geometry) loaded.start bound := by
  obtain ⟨flash, hload, hat⟩ := exists_at_start (toList_compile_code p) hfits m
  refine ⟨m.withFlash flash, _, hload, 0, {}, hat, ?_, p.continues hoverflow⟩
  refine ⟨fun v => Registers.get_zero v.register, ?_, rfl⟩
  intro axis value h
  cases axis <;> cases h

/-- Firmware without an overflow that fits into flash, loaded into any machine and switched on,
    does what its program means on a panel of the same geometry. After any number of steps the board
    has given no other events than the program gives. Wherever the program gets to, the board gets
    to, with the same events, the same panel and the same values of the variables. Where the program
    ends, the board stops and stays as it is: with the fault of the zero behind the firmware, or
    with none if the firmware fills flash. It stops nowhere else. -/
theorem Program.compile_preserves (p : Program)
    (hoverflow : overflowsOf p.compile.diagnostics = [])
    (hfits : p.compile.code.size ≤ flashCapacity) (m : Machine) :
    ∃ loaded, m.load p.compile.code = .ok loaded ∧
      let board := loaded.start
      let source := Situation.initial p m.panel.geometry
      let endsWith := if p.compile.code.size < flashCapacity then
          some (Fault.mk (.unknownOpcode 0) (origin + UInt32.ofNat p.compile.code.size))
        else none
      (∀ k, ∃ n, (board.run k).events <+: source.trace n) ∧
      (∀ n, ∃ k, (board.run k).events = source.trace n ∧
        (board.run k).machine.Presents (source.after n).scene) ∧
      (∀ n, (source.after n).rest = [] → ∃ k, ∀ l, k ≤ l →
        (board.run l).machine.running = false ∧ (board.run l).machine.fault = endsWith ∧
          (board.run l).events = source.trace n ∧
          (board.run l).machine.Presents (source.after n).scene) ∧
      (∀ k, (board.run k).machine.running = false → ∃ n, (source.after n).rest = []) := by
  obtain ⟨loaded, bound, hload, hfollows⟩ := p.follows_start hoverflow hfits m
  refine ⟨loaded, hload, ?_⟩
  intro board source endsWith
  have hmachine : ∀ k, (board.run k).machine = board.after k := fun k => (run_eq k board).1
  have hevents : ∀ k, (board.run k).events = board.emitted k := fun k => (run_eq k board).2.1
  have hends : endsWith = if size p.code < flashCapacity then some (endFault p.code) else none := by
    simp only [endsWith, ← p.size_code]
    rfl
  -- Behind the end of the program nothing more happens.
  have hstops : ∀ n, (source.after n).rest = [] → ∃ k, ∀ l, k ≤ l →
      (board.after l).running = false ∧ (board.after l).fault = endsWith ∧
        board.emitted l = source.trace n ∧ (board.after l).Presents (source.after n).scene := by
    intro n hend
    obtain ⟨k, ν, hreached, htrace⟩ := hfollows.steps n
    obtain ⟨hat, cache, hshows⟩ := hreached.at_end hend
    refine ⟨k + 1, ?_⟩
    intro l hl
    obtain ⟨more, rfl⟩ := Nat.exists_eq_add_of_le hl
    obtain ⟨hoff, hworking, hnone, hfault⟩ := hat.after_end more
    rw [Nat.add_assoc, Nat.add_comm 1, after_add, emitted_add, htrace, hnone, List.append_nil,
      hends]
    rw [← hworking] at hshows
    exact ⟨hoff, hfault, rfl, hshows.presents⟩
  refine ⟨?_, ?_, ?_, ?_⟩
  · intro k
    rw [hevents]
    rcases hfollows.unbounded k with ⟨n, hend⟩ | ⟨n, l, ν, hle, -, htrace⟩
    · obtain ⟨l, hstop⟩ := hstops n hend
      obtain ⟨-, -, htrace, -⟩ := hstop (k + l) (Nat.le_add_left l k)
      refine ⟨n, ?_⟩
      rw [← htrace, emitted_add]
      exact List.prefix_append _ _
    · refine ⟨n, ?_⟩
      obtain ⟨more, rfl⟩ := Nat.exists_eq_add_of_le hle
      rw [← htrace, emitted_add]
      exact List.prefix_append _ _
  · intro n
    obtain ⟨k, ν, hreached, htrace⟩ := hfollows.steps n
    refine ⟨k, ?_, ?_⟩
    · rw [hevents, htrace]
    · rw [hmachine]
      exact hreached.presents
  · intro n hend
    obtain ⟨k, hstop⟩ := hstops n hend
    refine ⟨k, ?_⟩
    intro l hl
    rw [hmachine, hevents]
    exact hstop l hl
  · intro k hoff
    rw [hmachine] at hoff
    rcases hfollows.unbounded k with hend | ⟨n, l, ν, hle, hreached, -⟩
    · exact hend
    · obtain ⟨more, rfl⟩ := Nat.exists_eq_add_of_le hle
      obtain ⟨_, _, hat, _, _⟩ := hreached
      have hrunning := hat.running_eq
      rw [after_add, after_of_off hoff, hoff] at hrunning
      cases hrunning

/-- A program that doubles a variable and draws: its firmware draws the same pixel, and then the
    board stops at the end of the firmware. -/
theorem Program.compile_preserves_doubled_dot :
    let dot : Program :=
      [.declare "x" 3, .assign "x" .add (.name "x"), .branch "x" .greater 5
        [.pixel (.shifted "x" .plus 1) (.literal 7)]]
    overflowsOf dot.compile.diagnostics = [] ∧ dot.compile.code.size ≤ flashCapacity ∧
      ∃ loaded, (Machine.new {}).load dot.compile.code = .ok loaded ∧
        ∃ k, (loaded.start.run k).events = [.pixel 7 7] ∧
          (loaded.start.run k).machine.running = false ∧
          (loaded.start.run k).machine.fault =
            some ⟨.unknownOpcode 0, origin + UInt32.ofNat dot.compile.code.size⟩ := by
  intro dot
  have hoverflow : overflowsOf dot.compile.diagnostics = [] := by decide
  have hfits : dot.compile.code.size ≤ flashCapacity := by decide
  refine ⟨hoverflow, hfits, ?_⟩
  obtain ⟨loaded, hload, -, -, hends, -⟩ :=
    Program.compile_preserves dot hoverflow hfits (Machine.new {})
  obtain ⟨k, hk⟩ := hends 4 rfl
  obtain ⟨hoff, hfault, hevents, -⟩ := hk k (Nat.le_refl k)
  have hlt : dot.compile.code.size < flashCapacity := by decide
  rw [if_pos hlt] at hfault
  exact ⟨loaded, hload, k, hevents, hoff, hfault⟩

end Microboard
