import Mathlib.Algebra.GroupWithZero.Nat
import Microboard.Proofs.Machine.Session

/-!
# Batches of any size

How a host cuts a run into batches cannot be told from what it sees. Two batches in a row give the
result of one batch of both sizes: `run_add_result`. Batches in a row end like as many single steps,
with the same events, and only one of them can meet a fault: `batching_unobservable`.
-/

namespace Microboard

/-- What two batches in a row report together. -/
def Report.followedBy (first second : Report) : Report :=
  ⟨first.steps + second.steps, second.running⟩

namespace Machine

/-! ### Steps, ticks and batches in a row -/

/-- How many steps an operation lets the machine take at most. -/
def Operation.budget (settings : Settings) : Operation → Nat
  | .step => 1
  | .tick => settings.stepsPerTick.toNat
  | .run budget => budget
  | _ => 0

/-- The operations that do nothing but step. -/
def Operation.Steps : Operation → Prop
  | .step | .tick | .run _ => True
  | _ => False

theorem settings_after (k : Nat) (m : Machine) : (m.after k).settings = m.settings := by
  induction k generalizing m with
  | zero => rfl
  | succ k ih => rw [after, ih, m.step_frame.1]

theorem perform_steps {op : Operation} (hop : op.Steps) (m : Machine) :
    (m.perform op).machine = m.after (op.budget m.settings) ∧
      (m.perform op).events = m.emitted (op.budget m.settings) := by
  cases op with
  | step => exact ⟨rfl, (List.append_nil _).symm⟩
  | tick =>
    obtain ⟨hmachine, hevents, -⟩ := run_eq m.settings.stepsPerTick.toNat m
    exact ⟨hmachine, hevents⟩
  | run budget =>
    obtain ⟨hmachine, hevents, -⟩ := run_eq budget m
    exact ⟨hmachine, hevents⟩
  | _ => cases hop

/-- However a host mixes steps, ticks and batches, what counts is how many steps they may take. -/
theorem performAll_steps {ops : List Operation} (hops : ∀ op ∈ ops, op.Steps) (m : Machine) :
    m.performAll ops = m.after (ops.map (Operation.budget m.settings)).sum ∧
      m.eventsOf ops = m.emitted (ops.map (Operation.budget m.settings)).sum := by
  induction ops generalizing m with
  | nil => exact ⟨rfl, rfl⟩
  | cons op ops ih =>
    obtain ⟨hmachine, hevents⟩ := perform_steps (hops op List.mem_cons_self) m
    obtain ⟨hfinal, hrest⟩ :=
      ih (fun o ho => hops o (List.mem_cons_of_mem op ho)) (m.perform op).machine
    rw [hmachine, settings_after] at hfinal hrest
    rw [performAll_cons, eventsOf_cons, List.map_cons, List.sum_cons, after_add, emitted_add,
      hevents, hmachine, hfinal, hrest]
    exact ⟨rfl, rfl⟩

theorem performAll_runs (budgets : List Nat) (m : Machine) :
    m.performAll (budgets.map .run) = m.after budgets.sum ∧
      m.eventsOf (budgets.map .run) = m.emitted budgets.sum := by
  have hops : ∀ op ∈ budgets.map Operation.run, op.Steps := by
    intro op hop
    obtain ⟨budget, -, rfl⟩ := List.mem_map.mp hop
    exact trivial
  have hbudget : (budgets.map Operation.run).map (Operation.budget m.settings) = budgets := by
    rw [List.map_map]
    exact List.map_id budgets
  have h := performAll_steps hops m
  rwa [hbudget] at h

theorem performAll_replicate_step (k : Nat) (m : Machine) :
    m.performAll (List.replicate k .step) = m.after k ∧
      m.eventsOf (List.replicate k .step) = m.emitted k := by
  have hops : ∀ op ∈ List.replicate k Operation.step, op.Steps := by
    intro op hop
    rw [List.eq_of_mem_replicate hop]
    exact trivial
  have hbudget : ((List.replicate k Operation.step).map (Operation.budget m.settings)).sum = k := by
    rw [List.map_replicate, List.sum_replicate_nat]
    exact Nat.mul_one k
  have h := performAll_steps hops m
  rwa [hbudget] at h

/-! ### The result of a batch -/

theorem run_of_off {m : Machine} (h : m.running = false) (budget : Nat) :
    m.run budget = ⟨m, .ok ⟨0, false⟩, []⟩ := by
  cases budget with
  | zero => rw [run, resume, h]
  | succ budget => rw [run, resume, h]; rfl

theorem resume_result (budget : Nat) : ∀ (steps : Nat) (events : Array Event) (m : Machine),
    (m.resume budget steps events).result =
      (m.run budget).result.map (Report.followedBy ⟨steps, true⟩) := by
  -- The loop counts up while its budget goes down, so the count is general in the induction.
  induction budget with
  | zero =>
    intro steps events m
    rfl
  | succ budget ih =>
    intro steps events m
    rcases hrunning : m.running with _ | _
    · rw [run_of_off hrunning]
      simp only [resume, hrunning, Bool.false_eq_true, if_false]
      rfl
    · simp only [run, resume, hrunning, if_true]
      rcases m.step with ⟨next, fault | outcome, new⟩
      · rfl
      · simp only [ih]
        rcases (next.run budget).result with fault | report
        · rfl
        · simp only [Except.map, Report.followedBy, Nat.zero_add, Nat.add_assoc]

theorem run_succ_of_error {m : Machine} {fault : Fault} (hrunning : m.running = true)
    (h : m.step.outcome = .error fault) (budget : Nat) :
    (m.run (budget + 1)).result = .error fault := by
  simp only [run, resume, hrunning, if_true]
  rcases hs : m.step with ⟨next, outcome, new⟩
  rw [hs] at h
  cases h
  rfl

theorem run_succ_of_ok {m : Machine} {outcome : Outcome} (hrunning : m.running = true)
    (h : m.step.outcome = .ok outcome) (budget : Nat) :
    (m.run (budget + 1)).result =
      (m.step.machine.run budget).result.map (Report.followedBy ⟨1, true⟩) := by
  rw [run, resume, if_pos hrunning]
  rcases hs : m.step with ⟨next, result, new⟩
  rw [hs] at h
  cases h
  exact resume_result budget 1 _ next

theorem machine_run_succ (budget : Nat) (m : Machine) :
    (m.run (budget + 1)).machine = (m.step.machine.run budget).machine := by
  rw [(run_eq (budget + 1) m).1, (run_eq budget m.step.machine).1]
  rfl

theorem run_add_result (k l : Nat) (m : Machine) :
    (m.run (k + l)).result =
      (m.run k).result.bind fun first => ((m.run k).machine.run l).result.map first.followedBy := by
  induction k generalizing m with
  | zero =>
    rw [Nat.zero_add]
    show (m.run l).result = (m.run l).result.map (Report.followedBy ⟨0, m.running⟩)
    rcases (m.run l).result with fault | report
    · rfl
    · simp only [Except.map, Report.followedBy, Nat.zero_add]
  | succ k ih =>
    rcases hrunning : m.running with _ | _
    · -- Neither part does anything, and neither does the whole.
      rw [run_of_off hrunning, run_of_off hrunning, run_of_off hrunning]
      rfl
    · rw [Nat.add_right_comm, machine_run_succ]
      rcases hs : m.step.outcome with fault | outcome
      · rw [run_succ_of_error hrunning hs, run_succ_of_error hrunning hs]
        rfl
      · rw [run_succ_of_ok hrunning hs, run_succ_of_ok hrunning hs, ih]
        rcases (m.step.machine.run k).result with fault | first
        · rfl
        · simp only [Except.bind, Except.map]
          rcases ((m.step.machine.run k).machine.run l).result with fault | second
          · rfl
          · simp only [Report.followedBy, Nat.add_assoc]

theorem run_add_ok {k l : Nat} {m : Machine} {report : Report}
    (h : (m.run (k + l)).result = .ok report) :
    ∃ first second, (m.run k).result = .ok first ∧
      ((m.run k).machine.run l).result = .ok second ∧ first.followedBy second = report := by
  rw [run_add_result] at h
  rcases hfirst : (m.run k).result with fault | first
  · rw [hfirst] at h
    cases h
  · rcases hsecond : ((m.run k).machine.run l).result with fault | second
    · simp only [hfirst, Except.bind, hsecond] at h
      cases h
    · simp only [hfirst, Except.bind, hsecond] at h
      cases h
      exact ⟨first, second, rfl, rfl, rfl⟩

theorem run_add_error {k l : Nat} {m : Machine} {fault : Fault}
    (h : (m.run (k + l)).result = .error fault) :
    (m.run k).result = .error fault ∨
      ∃ first, (m.run k).result = .ok first ∧
        ((m.run k).machine.run l).result = .error fault := by
  rw [run_add_result] at h
  rcases hfirst : (m.run k).result with cause | first
  · rw [hfirst] at h
    exact Or.inl h
  · rcases hsecond : ((m.run k).machine.run l).result with cause | second
    · simp only [hfirst, Except.bind, hsecond] at h
      exact Or.inr ⟨first, rfl, h⟩
    · simp only [hfirst, Except.bind, hsecond] at h
      cases h

/-- A report tells the truth about the switch. -/
theorem running_of_run_ok {k : Nat} {m : Machine} {report : Report}
    (h : (m.run k).result = .ok report) : report.running = (m.run k).machine.running := by
  have hcut := run_add_result k 0 m
  rw [Nat.add_zero, h] at hcut
  exact congrArg Report.running (Except.ok.inj hcut)

/-- A batch that meets a fault ends right behind the step that met it. -/
theorem exists_step_of_run_error {k : Nat} {m : Machine} {fault : Fault}
    (h : (m.run k).result = .error fault) :
    ∃ before : Machine, before.step.outcome = .error fault ∧
      (m.run k).machine = before.step.machine := by
  induction k generalizing m with
  | zero => cases h
  | succ k ih =>
    rcases hrunning : m.running with _ | _
    · rw [run_of_off hrunning] at h
      cases h
    · rw [machine_run_succ]
      rcases hs : m.step.outcome with cause | outcome
      · rw [run_succ_of_error hrunning hs] at h
        cases h
        refine ⟨m, hs, ?_⟩
        rw [run_of_off (off_of_fault hs)]
      · rw [run_succ_of_ok hrunning hs] at h
        rcases hrest : (m.step.machine.run k).result with cause | report
        · rw [hrest] at h
          cases h
          exact ih hrest
        · rw [hrest] at h
          cases h

theorem off_of_run_error {k : Nat} {m : Machine} {fault : Fault}
    (h : (m.run k).result = .error fault) : (m.run k).machine.running = false := by
  obtain ⟨before, hstep, hmachine⟩ := exists_step_of_run_error h
  rw [hmachine]
  exact off_of_fault hstep

/-! ### Batches in a row -/

theorem faultsOf_cons (m : Machine) (op : Operation) (ops : List Operation) :
    m.faultsOf (op :: ops) =
      (m.perform op).reply.fault?.toList ++ (m.perform op).machine.faultsOf ops := by
  rw [faultsOf, responses, List.filterMap_cons]
  rcases (m.perform op).reply.fault? with _ | fault
  · rfl
  · rfl

theorem faultsOf_runs_of_off {m : Machine} (h : m.running = false) (budgets : List Nat) :
    m.faultsOf (budgets.map .run) = [] := by
  induction budgets with
  | nil => rfl
  | cons budget budgets ih =>
    rw [List.map_cons, faultsOf_cons, perform, run_of_off h]
    exact ih

/-- If the whole run meets no fault, every batch reports, and the reports add up. -/
theorem replies_of_run_ok {budgets : List Nat} : ∀ {m : Machine} {report : Report},
    (m.run budgets.sum).result = .ok report →
      ∃ reports : List Report,
        (m.responses (budgets.map .run)).map Response.reply =
          reports.map (fun r => .ran (.ok r)) ∧
        (reports.map Report.steps).sum = report.steps ∧
        (reports.getLast?.map Report.running).getD m.running = report.running := by
  induction budgets with
  | nil =>
    intro m report h
    cases h
    exact ⟨[], rfl, rfl, rfl⟩
  | cons budget budgets ih =>
    intro m report h
    rw [List.sum_cons] at h
    obtain ⟨first, second, hfirst, hsecond, rfl⟩ := run_add_ok h
    obtain ⟨reports, hreplies, hsteps, hlast⟩ := ih hsecond
    refine ⟨first :: reports, ?_, ?_, ?_⟩
    · rw [List.map_cons, responses, List.map_cons, List.map_cons, perform, hfirst, hreplies]
    · rw [List.map_cons, List.sum_cons, hsteps]
      rfl
    · rw [← running_of_run_ok hfirst] at hlast
      rw [List.getLast?_cons]
      show _ = second.running
      rw [← hlast]
      cases reports.getLast? <;> rfl

/-- If the whole run meets a fault, one batch meets it, and the batches behind it do nothing. -/
theorem faultsOf_runs_of_error {budgets : List Nat} {fault : Fault} : ∀ {m : Machine},
    (m.run budgets.sum).result = .error fault → m.faultsOf (budgets.map .run) = [fault] := by
  induction budgets with
  | nil =>
    intro m h
    cases h
  | cons budget budgets ih =>
    intro m h
    rw [List.sum_cons] at h
    rw [List.map_cons, faultsOf_cons, perform]
    rcases run_add_error h with hfirst | ⟨first, hfirst, hsecond⟩
    · -- The first batch meets it and leaves the machine off, so the others are silent.
      rw [hfirst, faultsOf_runs_of_off (off_of_run_error hfirst)]
      rfl
    · rw [hfirst]
      exact ih hsecond

theorem faultsOf_runs_of_ok {budgets : List Nat} {m : Machine} {report : Report}
    (h : (m.run budgets.sum).result = .ok report) : m.faultsOf (budgets.map .run) = [] := by
  obtain ⟨reports, hreplies, -, -⟩ := replies_of_run_ok h
  have hfaults : m.faultsOf (budgets.map .run) =
      ((m.responses (budgets.map .run)).map Response.reply).filterMap Reply.fault? := by
    rw [List.filterMap_map]
    rfl
  rw [hfaults, hreplies, List.filterMap_map, List.filterMap_eq_nil_iff]
  intro r _
  rfl

/-- Batches in a row, whatever the machine meets in them, leave it as so many single steps do and as
    one batch of all of them does, and let the same events be seen. At most one of the batches meets
    a fault, and it is the fault of the one large batch. If that meets none, every batch reports: the
    steps add up to those of the large batch, and the last batch finds the machine on or off like
    the large one. -/
theorem batching_unobservable (m : Machine) (budgets : List Nat) :
    let batches := budgets.map Operation.run
    let singles := List.replicate budgets.sum Operation.step
    let whole := m.run budgets.sum
    (m.performAll batches = m.performAll singles ∧ m.eventsOf batches = m.eventsOf singles) ∧
      (m.performAll batches = whole.machine ∧ m.eventsOf batches = whole.events) ∧
      (m.faultsOf batches).length ≤ 1 ∧
      (∀ fault, fault ∈ m.faultsOf batches ↔ whole.result = .error fault) ∧
      (∀ report, whole.result = .ok report →
        ∃ reports : List Report,
          (m.responses batches).map Response.reply = reports.map (fun r => .ran (.ok r)) ∧
          (reports.map Report.steps).sum = report.steps ∧
          ∀ last ∈ reports.getLast?, last.running = report.running) := by
  intro batches singles whole
  obtain ⟨hbatches, hbatched⟩ := performAll_runs budgets m
  obtain ⟨hsingles, hsingle⟩ := performAll_replicate_step budgets.sum m
  obtain ⟨hwhole, hevents, -⟩ := run_eq budgets.sum m
  refine ⟨⟨hbatches.trans hsingles.symm, hbatched.trans hsingle.symm⟩,
    ⟨hbatches.trans hwhole.symm, hbatched.trans hevents.symm⟩, ?_, ?_, ?_⟩
  · rcases hresult : whole.result with fault | report
    · rw [faultsOf_runs_of_error hresult]
      exact Nat.le_refl 1
    · rw [faultsOf_runs_of_ok hresult]
      exact Nat.zero_le 1
  · intro fault
    rcases hresult : whole.result with cause | report
    · rw [faultsOf_runs_of_error hresult, List.mem_singleton]
      constructor
      · rintro rfl
        rfl
      · intro h
        cases h
        rfl
    · rw [faultsOf_runs_of_ok hresult]
      constructor
      · intro h
        cases h
      · intro h
        cases h
  · intro report hresult
    obtain ⟨reports, hreplies, hsteps, hlast⟩ := replies_of_run_ok hresult
    refine ⟨reports, hreplies, hsteps, ?_⟩
    intro last hmem
    rw [Option.mem_def.mp hmem] at hlast
    exact hlast

end Machine

end Microboard
