import Microboard.Proofs.Machine.Batches
import Microboard.Proofs.Machine.Cycles
import Microboard.Proofs.Machine.Work

/-!
# What a batch reports

A batch without a fault reports how many steps it has taken. Each of them has executed an
instruction or passed a cycle of a delay, apart from the last step of a batch that leaves flash:
this one finds nothing to do and switches the machine off, but it is counted like the others.
`report_accounts` is the account, and `report_exceeds_work` says that it does not come out even.
-/

namespace Microboard

open Instruction

namespace Machine

/-! ### How a batch without a fault ends -/

/-- A step without a fault of a machine that is on works and leaves the machine on, or it halts
    because the machine has left flash. -/
theorem step_of_on {m : Machine} {outcome : Outcome} (hrunning : m.running = true)
    (h : m.step.outcome = .ok outcome) :
    (m.step.Works ∧ m.step.machine.running = true) ∨
      (m.step = ⟨m.stop, .ok .halted, []⟩ ∧
        ∀ offset, m.offset? = some offset → flashCapacity ≤ offset) := by
  rcases m.step_cases with ⟨hlive, hs⟩ | ⟨-, -, hs⟩ | ⟨_, _, -, -, -, hs⟩ |
    ⟨_, i, length, -, -, -, hs⟩
  · right
    refine ⟨hs, ?_⟩
    intro offset hoffset
    apply Nat.le_of_not_lt
    intro hlt
    rw [live?_eq_some_iff.mpr ⟨hrunning, hoffset, hlt⟩] at hlive
    cases hlive
  · left
    rw [hs]
    exact ⟨Or.inr rfl, hrunning⟩
  · rw [hs] at h
    cases h
  · left
    obtain ⟨pc, jumped, hr⟩ := m.retire_eq i length
    obtain ⟨-, -, -, hon, -⟩ := m.execute_frame i
    rw [hs, hr]
    exact ⟨Or.inl rfl, hon.trans hrunning⟩

theorem run_succ_ok {k : Nat} {m : Machine} {report : Report} (hrunning : m.running = true)
    (h : (m.run (k + 1)).result = .ok report) :
    ∃ outcome rest, m.step.outcome = .ok outcome ∧ (m.step.machine.run k).result = .ok rest ∧
      Report.followedBy ⟨1, true⟩ rest = report := by
  rcases hs : m.step.outcome with fault | outcome
  · rw [run_succ_of_error hrunning hs] at h
    cases h
  · rw [run_succ_of_ok hrunning hs] at h
    rcases hrest : (m.step.machine.run k).result with fault | rest
    · rw [hrest] at h
      cases h
    · rw [hrest] at h
      exact ⟨outcome, rest, rfl, rfl, Except.ok.inj h⟩

/-- A batch without a fault of a machine that is on: all its steps work and it takes as many as it
    may, or its last step halts because the machine has left flash. -/
theorem run_ok_cases {k : Nat} {m : Machine} {report : Report} (hrunning : m.running = true)
    (h : (m.run k).result = .ok report) :
    (report.running = true ∧ (m.taken k).length = k ∧ ∀ s ∈ m.taken k, s.Works) ∨
      (report.running = false ∧
        (∃ front last, m.taken k = front ++ [last] ∧ (∀ s ∈ front, s.Works) ∧
          last.outcome = .ok .halted) ∧
        ∀ offset, (m.run k).machine.offset? = some offset → flashCapacity ≤ offset) := by
  induction k generalizing m report with
  | zero =>
    left
    cases h
    exact ⟨hrunning, rfl, List.forall_mem_nil _⟩
  | succ k ih =>
    obtain ⟨outcome, rest, hs, hrest, rfl⟩ := run_succ_ok hrunning h
    rw [taken, hrunning, if_pos rfl, machine_run_succ]
    rcases step_of_on hrunning hs with ⟨hworks, hon⟩ | ⟨hstep, hoffset⟩
    · rcases ih hon hrest with ⟨hreport, hlength, hall⟩ |
        ⟨hreport, ⟨front, last, htaken, hall, hlast⟩, hoffset⟩
      · left
        exact ⟨hreport, by rw [List.length_cons, hlength], List.forall_mem_cons.mpr ⟨hworks, hall⟩⟩
      · right
        refine ⟨hreport, ⟨m.step :: front, last, ?_, ?_, hlast⟩, hoffset⟩
        · rw [htaken]
          rfl
        · exact List.forall_mem_cons.mpr ⟨hworks, hall⟩
    · -- The machine is off behind this step, so nothing follows.
      right
      have hoff : m.step.machine.running = false := by rw [hstep]; rfl
      rw [run_of_off hoff] at hrest ⊢
      cases hrest
      refine ⟨rfl, ⟨[], m.step, ?_, List.forall_mem_nil _, by rw [hstep]⟩, ?_⟩
      · rw [taken_of_off hoff]
        rfl
      · rw [hstep]
        exact hoffset

/-- The steps that a batch reports are those that have executed an instruction, those that have
    passed a cycle of a delay, and one more if the machine went off in it. -/
theorem steps_of_run_ok {k : Nat} {m : Machine} {report : Report}
    (h : (m.run k).result = .ok report) :
    report.steps = ((m.taken k).filterMap Step.executed?).length +
      ((m.taken k).filterMap Step.remaining?).length +
      if m.running = true ∧ report.running = false then 1 else 0 := by
  rw [(run_eq k m).2.2 report h]
  rcases hrunning : m.running with _ | _
  · rw [taken_of_off hrunning]
    rfl
  · rcases run_ok_cases hrunning h with ⟨hreport, -, hall⟩ |
      ⟨hreport, ⟨front, last, htaken, hall, hlast⟩, -⟩
    · rw [hreport, Step.length_of_works hall]
      rfl
    · obtain ⟨hexecuted, hremaining⟩ := Step.idle_of_halted hlast
      rw [hreport, htaken, List.filterMap_append, List.filterMap_append, List.length_append,
        Step.length_of_works hall, List.filterMap_cons_none hexecuted,
        List.filterMap_cons_none hremaining]
      simp

/-- A report is that of a tick or of a batch, and so of as many steps as the operation lets the
    machine take. -/
theorem batch_of_reply {m : Machine} {op : Operation} {report : Report}
    (h : (m.perform op).reply = .ran (.ok report)) :
    m.stepsOf op = m.taken (op.budget m.settings) ∧
      (m.perform op).machine = (m.run (op.budget m.settings)).machine ∧
      (m.run (op.budget m.settings)).result = .ok report := by
  cases op with
  | load image =>
    simp only [perform] at h
    split at h <;> cases h
  | tick => exact ⟨rfl, rfl, Reply.ran.inj h⟩
  | run budget => exact ⟨rfl, rfl, Reply.ran.inj h⟩
  | _ => cases h

/-- A tick or a batch of any size that meets no fault reports the steps that have executed an
    instruction and those that have passed a cycle of a delay, and besides, if the machine has gone
    off in it, the step that found it behind flash. The counter of instructions has grown by the
    former, modulo 2^64, and the cycles that have passed are those of the delays set meanwhile and
    before, less what is left of them. A batch that takes fewer steps than it may leaves the machine
    off. -/
theorem report_accounts {m : Machine} {op : Operation} {report : Report}
    (h : (m.perform op).reply = .ran (.ok report)) :
    let final := (m.perform op).machine
    let executed := (m.stepsOf op).filterMap Step.executed?
    let passed := (m.stepsOf op).filterMap Step.remaining?
    report.steps = executed.length + passed.length +
        (if m.running = true ∧ report.running = false then 1 else 0) ∧
      (m.running = true → report.running = false →
        ∀ offset, final.offset? = some offset → flashCapacity ≤ offset) ∧
      final.executed = (m.executed + executed.length) % UInt64.size ∧
      final.delay.toNat + passed.length = m.delay.toNat + (executed.map cycles).sum ∧
      report.running = final.running ∧
      (report.steps < op.budget m.settings → report.running = false) := by
  obtain ⟨hsteps, hmachine, hresult⟩ := batch_of_reply h
  rw [hsteps, hmachine]
  generalize op.budget m.settings = k at hresult
  have hlogged : m.Logged (m.taken k) (m.run k).machine :=
    run_relates Logged.refl Logged.step Logged.append k m
  refine ⟨steps_of_run_ok hresult, ?_, hlogged.executed_eq, Spent.run k m,
    running_of_run_ok hresult, ?_⟩
  · intro hrunning hreport
    rcases run_ok_cases hrunning hresult with ⟨hon, -, -⟩ | ⟨-, -, hoffset⟩
    · rw [hon] at hreport
      cases hreport
    · exact hoffset
  · intro hfewer
    rcases hrunning : m.running with _ | _
    · rw [run_of_off hrunning] at hresult
      cases hresult
      rfl
    · rcases run_ok_cases hrunning hresult with ⟨-, hlength, -⟩ | ⟨hreport, -, -⟩
      · rw [(run_eq k m).2.2 report hresult, hlength] at hfewer
        exact absurd hfewer (Nat.lt_irrefl k)
      · exact hreport

/-! ### A machine that is on behind flash -/

theorem size_replicate (count : Nat) (i : Instruction) :
    size (List.replicate count i) = count * i.opcode.recordLength := by
  induction count with
  | zero => rw [List.replicate_zero, size_nil, Nat.zero_mul]
  | succ count ih => rw [List.replicate_succ, size_cons, ih, Nat.succ_mul, Nat.add_comm]

/-- Flash can be full of instructions that lead through to its end, and a batch can end there. -/
theorem exists_behind_flash (settings : Settings) :
    ∃ history, let m := (Machine.new settings).performAll history
      m.running = true ∧ m.step = ⟨m.stop, .ok .halted, []⟩ := by
  obtain ⟨count, hcount⟩ : ∃ count, count * 2 = flashCapacity := ⟨flashCapacity / 2, by decide⟩
  let code := List.replicate count Instruction.screenClear
  have hsize : size code = flashCapacity := (size_replicate count .screenClear).trans hcount
  have hplain : ∀ i ∈ code, i.Plain := by
    intro i hi
    rw [List.eq_of_mem_replicate hi]
    exact ⟨trivial, rfl⟩
  let image := (bytes code).toArray
  have himage : image.toList = bytes code := rfl
  have hfits : image.size ≤ flashCapacity := by
    apply Nat.le_of_eq
    rw [← Array.length_toList, himage, length_bytes, hsize]
  obtain ⟨flash, hload, hstart⟩ := exists_at_start himage hfits (Machine.new settings)
  obtain ⟨k, -, hreaches⟩ := hstart.reaches_straight hplain (Stands.whole code)
  have hhere := hreaches.here
  rw [Nat.zero_add] at hhere
  have hperformed : (Machine.new settings).performAll [.load image, .start, .run k] =
      ((Machine.new settings).withFlash flash).start.after k := by
    obtain ⟨loaded, hflash, hmachine⟩ := load_eq_ok.mp hload
    rw [performAll_cons, perform_load_of_ok hflash, hmachine]
    exact (run_eq k _).1
  refine ⟨[.load image, .start, .run k], ?_⟩
  rw [hperformed]
  exact ⟨hhere.running_eq, hhere.step_of_full hsize⟩

theorem run_behind_flash {m : Machine} (hrunning : m.running = true)
    (hstep : m.step = ⟨m.stop, .ok .halted, []⟩) (k : Nat) :
    m.perform (.run (k + 1)) = ⟨m.stop, .ran (.ok ⟨1, false⟩), []⟩ ∧
      m.stepsOf (.run (k + 1)) = [m.step] := by
  have hoff : m.stop.running = false := rfl
  constructor
  · have houtcome : m.step.outcome = .ok .halted := by rw [hstep]
    have hresult := run_succ_of_ok hrunning houtcome k
    have hmachine := machine_run_succ k m
    have hevents := (run_eq (k + 1) m).2.1
    rw [hstep, run_of_off hoff] at hresult hmachine
    rw [emitted, hstep, emitted_of_off hoff] at hevents
    simp only [perform, hresult, hmachine, hevents]
    rfl
  · rw [stepsOf, taken, hrunning, if_pos rfl, hstep, taken_of_off hoff]

/-- A machine that is on behind flash runs for at most five steps: it reports one, in which it has
    done nothing. -/
theorem report_accounts_behind_flash :
    ∃ history, let m := (Machine.new {}).performAll history
      (m.perform (.run 5)).reply = .ran (.ok ⟨1, false⟩) ∧
        (m.stepsOf (.run 5)).filterMap Step.executed? = [] ∧
        (m.stepsOf (.run 5)).filterMap Step.remaining? = [] ∧
        ∀ offset, (m.perform (.run 5)).machine.offset? = some offset →
          flashCapacity ≤ offset := by
  obtain ⟨history, hrunning, hstep⟩ := exists_behind_flash {}
  refine ⟨history, ?_⟩
  intro m
  obtain ⟨hperform, hsteps⟩ := run_behind_flash hrunning hstep 4
  have hreply : (m.perform (.run 5)).reply = .ran (.ok ⟨1, false⟩) := by rw [hperform]
  obtain ⟨-, hoffset, -⟩ := report_accounts hreply
  rw [hsteps, hstep]
  exact ⟨hreply, rfl, rfl, hoffset hrunning rfl⟩

/-- The steps that a batch reports are not always as many as have executed an instruction or passed
    a cycle of a delay. -/
theorem report_exceeds_work :
    ¬ ∀ (settings : Settings) (history : List Operation) (op : Operation) (report : Report),
      let m := (Machine.new settings).performAll history
      (m.perform op).reply = .ran (.ok report) →
        report.steps = ((m.stepsOf op).filterMap Step.executed?).length +
          ((m.stepsOf op).filterMap Step.remaining?).length := by
  intro hall
  obtain ⟨history, hrunning, hstep⟩ := exists_behind_flash {}
  obtain ⟨hperform, hsteps⟩ := run_behind_flash hrunning hstep 0
  have hcount := hall {} history (.run 1) ⟨1, false⟩ (by rw [hperform])
  rw [hsteps, hstep] at hcount
  cases hcount

end Machine

end Microboard
