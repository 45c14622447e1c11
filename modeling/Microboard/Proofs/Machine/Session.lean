import Microboard.Proofs.Machine.Steps

/-!
# The steps of a session

However a host drives a machine, what happens is one step after another: `run_eq` says it of a
batch. `drive_invariant` carries a property that steps and the switch keep over a whole session, and
hands it out in front of every step.
-/

namespace Microboard.Machine

/-! ### Steps in a row -/

def after : Nat → Machine → Machine
  | 0, m => m
  | k + 1, m => m.step.machine.after k

def emitted : Nat → Machine → List Event
  | 0, _ => []
  | k + 1, m => m.step.events ++ m.step.machine.emitted k

theorem after_add (k l : Nat) (m : Machine) : m.after (k + l) = (m.after k).after l := by
  induction k generalizing m with
  | zero => rw [Nat.zero_add]; rfl
  | succ k ih => rw [Nat.add_right_comm, after, ih]; rfl

theorem emitted_add (k l : Nat) (m : Machine) :
    m.emitted (k + l) = m.emitted k ++ (m.after k).emitted l := by
  induction k generalizing m with
  | zero => rw [Nat.zero_add]; rfl
  | succ k ih => rw [Nat.add_right_comm, emitted, ih, emitted, List.append_assoc]; rfl

/-! ### A machine that is off -/

theorem stop_of_off {m : Machine} (h : m.running = false) : m.stop = m := by
  cases m
  cases h
  rfl

theorem step_of_off {m : Machine} (h : m.running = false) : m.step = ⟨m, .ok .halted, []⟩ := by
  have hlive : m.live? = none := by simp [live?, h]
  simp only [step, hlive, stop_of_off h]

theorem after_of_off {m : Machine} (h : m.running = false) (k : Nat) : m.after k = m := by
  induction k with
  | zero => rfl
  | succ k ih => rw [after, step_of_off h, ih]

theorem emitted_of_off {m : Machine} (h : m.running = false) (k : Nat) : m.emitted k = [] := by
  induction k with
  | zero => rfl
  | succ k ih => rw [emitted, step_of_off h, ih, List.append_nil]

theorem off_of_fault {m : Machine} {fault : Fault} (h : m.step.outcome = .error fault) :
    m.step.machine.running = false := by
  obtain ⟨-, -, -, hstep⟩ := step_eq_of_fault h
  rw [hstep]

/-! ### Batches -/

/-- The steps that a batch takes: it ends early when the machine goes off. -/
def taken : Nat → Machine → List Step
  | 0, _ => []
  | budget + 1, m => if m.running then m.step :: m.step.machine.taken budget else []

theorem taken_of_off {m : Machine} (h : m.running = false) (budget : Nat) :
    m.taken budget = [] := by
  cases budget with
  | zero => rfl
  | succ budget => rw [taken, h]; rfl

/-- A batch ends where its steps end, with what happened in them, and it counts them. -/
theorem resume_eq (budget : Nat) : ∀ (steps : Nat) (events : Array Event) (m : Machine),
    (m.resume budget steps events).machine = m.after budget ∧
      (m.resume budget steps events).events = events.toList ++ m.emitted budget ∧
      ∀ report, (m.resume budget steps events).result = .ok report →
        report.steps = steps + (m.taken budget).length := by
  induction budget with
  | zero =>
    intro steps events m
    refine ⟨rfl, (List.append_nil _).symm, ?_⟩
    intro report h
    cases h
    rfl
  | succ budget ih =>
    intro steps events m
    rcases hrunning : m.running with _ | _
    · simp only [resume, hrunning, Bool.false_eq_true, if_false]
      refine ⟨(after_of_off hrunning _).symm, ?_, ?_⟩
      · rw [emitted_of_off hrunning, List.append_nil]
      · intro report h
        cases h
        rw [taken_of_off hrunning]
        rfl
    · simp only [resume, hrunning, if_true, after, emitted, taken]
      rcases hs : m.step with ⟨next, fault | outcome, new⟩
      · have hoff : next.running = false := by
          have hfault : m.step.outcome = .error fault := by rw [hs]
          have h := off_of_fault hfault
          rwa [hs] at h
        refine ⟨(after_of_off hoff _).symm, ?_, ?_⟩
        · simp [emitted_of_off hoff]
        · intro report h
          cases h
      · obtain ⟨hmachine, hevents, hsteps⟩ := ih (steps + 1) (events ++ new) next
        refine ⟨hmachine, ?_, ?_⟩
        · rw [hevents, Array.toList_appendList, List.append_assoc]
        · intro report h
          rw [hsteps report h, List.length_cons, Nat.add_assoc, Nat.add_comm 1]

/-- A batch is its steps in a row. -/
theorem run_eq (budget : Nat) (m : Machine) :
    (m.run budget).machine = m.after budget ∧ (m.run budget).events = m.emitted budget ∧
      ∀ report, (m.run budget).result = .ok report → report.steps = (m.taken budget).length := by
  obtain ⟨hmachine, hevents, hsteps⟩ := resume_eq budget 0 #[] m
  refine ⟨hmachine, hevents, ?_⟩
  intro report h
  rw [hsteps report h, Nat.zero_add]

/-! ### What the host is told -/

def Reply.fault? : Reply → Option Fault
  | .stepped (.error fault) | .ran (.error fault) => some fault
  | _ => none

def responses (m : Machine) : List Operation → List Response
  | [] => []
  | op :: ops => m.perform op :: (m.perform op).machine.responses ops

def eventsOf (m : Machine) (ops : List Operation) : List Event :=
  (m.responses ops).flatMap Response.events

/-- The faults that the host is told of while operations in a row are carried out. -/
def faultsOf (m : Machine) (ops : List Operation) : List Fault :=
  (m.responses ops).filterMap fun r => r.reply.fault?

theorem performAll_cons (m : Machine) (op : Operation) (ops : List Operation) :
    m.performAll (op :: ops) = (m.perform op).machine.performAll ops := rfl

theorem eventsOf_cons (m : Machine) (op : Operation) (ops : List Operation) :
    m.eventsOf (op :: ops) = (m.perform op).events ++ (m.perform op).machine.eventsOf ops :=
  List.flatMap_cons

/-- What each operation of a session keeps, the session keeps; and what each says of its response
    holds of all responses. -/
theorem responses_invariant {P : Machine → Prop} {Q : Response → Prop} {ops : List Operation}
    (hperform : ∀ m, ∀ op ∈ ops, P m → P (m.perform op).machine ∧ Q (m.perform op)) :
    ∀ m, P m → P (m.performAll ops) ∧ ∀ r ∈ m.responses ops, Q r := by
  induction ops with
  | nil =>
    intro m h
    refine ⟨h, ?_⟩
    intro r hr
    cases hr
  | cons op ops ih =>
    intro m h
    obtain ⟨hnext, hfirst⟩ := hperform m op List.mem_cons_self h
    obtain ⟨hfinal, hrest⟩ := ih (fun n o ho => hperform n o (List.mem_cons_of_mem op ho)) _ hnext
    refine ⟨hfinal, ?_⟩
    intro r hr
    rcases List.mem_cons.mp hr with rfl | hmem
    · exact hfirst
    · exact hrest r hmem

/-! ### Driving a machine -/

/-- The operations that only drive a machine: they let it step, or switch it on or off. -/
def Operation.Drives : Operation → Prop
  | .start | .stop | .step | .tick | .run _ => True
  | .load _ | .setRegister .. | .setLevel .. | .setMode .. | .connect _ => False

def stepsOf (m : Machine) : Operation → List Step
  | .step => [m.step]
  | .tick => m.taken m.settings.stepsPerTick.toNat
  | .run budget => m.taken budget
  | _ => []

def stepsOfAll (m : Machine) : List Operation → List Step
  | [] => []
  | op :: ops => m.stepsOf op ++ (m.perform op).machine.stepsOfAll ops

section Invariant

variable {P : Machine → Prop} (hstep : ∀ m, P m → P m.step.machine)
include hstep

theorem taken_invariant (budget : Nat) :
    ∀ m, P m → ∀ s ∈ m.taken budget, ∃ before, P before ∧ s = before.step := by
  induction budget with
  | zero =>
    intro m _ s hs
    cases hs
  | succ budget ih =>
    intro m h s hs
    simp only [taken] at hs
    split at hs
    · rcases List.mem_cons.mp hs with rfl | hmem
      · exact ⟨m, h, rfl⟩
      · exact ih _ (hstep m h) s hmem
    · cases hs

theorem stepsOf_invariant {op : Operation} {m : Machine} (h : P m) :
    ∀ s ∈ m.stepsOf op, ∃ before, P before ∧ s = before.step := by
  intro s hs
  cases op with
  | step =>
    rw [stepsOf, List.mem_singleton] at hs
    exact ⟨m, h, hs⟩
  | tick => exact taken_invariant hstep _ m h s hs
  | run budget => exact taken_invariant hstep budget m h s hs
  | _ => cases hs

/-- What steps keep, and with them the operations of a session, holds in front of every step of
    that session. -/
theorem stepsOfAll_invariant {ops : List Operation}
    (hperform : ∀ m, ∀ op ∈ ops, P m → P (m.perform op).machine) {m : Machine} (h : P m) :
    ∀ s ∈ m.stepsOfAll ops, ∃ before, P before ∧ s = before.step := by
  induction ops generalizing m with
  | nil =>
    intro s hs
    cases hs
  | cons op ops ih =>
    have hnext := hperform m op List.mem_cons_self h
    have hrest := ih (fun n o ho => hperform n o (List.mem_cons_of_mem op ho)) hnext
    intro s hs
    rcases List.mem_append.mp hs with hfirst | hlater
    · exact stepsOf_invariant hstep h s hfirst
    · exact hrest s hlater

theorem after_invariant (k : Nat) {m : Machine} (h : P m) : P (m.after k) := by
  induction k generalizing m with
  | zero => exact h
  | succ k ih => exact ih (hstep m h)

variable (hstart : ∀ m, P m → P m.start) (hstop : ∀ m, P m → P m.stop)
include hstart hstop

theorem perform_invariant {op : Operation} (hop : op.Drives) {m : Machine} (h : P m) :
    P (m.perform op).machine := by
  cases op with
  | start => exact hstart m h
  | stop => exact hstop m h
  | step => exact hstep m h
  | tick => exact run_invariant hstep _ h
  | run budget => exact run_invariant hstep budget h
  | _ => cases hop

/-- What steps and the switch keep holds in front of every step of a session that only drives the
    machine, and at its end. -/
theorem drive_invariant {ops : List Operation} (hops : ∀ op ∈ ops, op.Drives) {m : Machine}
    (h : P m) :
    P (m.performAll ops) ∧ ∀ s ∈ m.stepsOfAll ops, ∃ before, P before ∧ s = before.step := by
  have hperform : ∀ m, ∀ op ∈ ops, P m → P (m.perform op).machine := by
    intro n op hop hn
    exact perform_invariant hstep hstart hstop (hops op hop) hn
  exact ⟨performAll_invariant hperform m h, stepsOfAll_invariant hstep hperform h⟩

/-- It also holds behind so many steps, and so in the middle of a batch. -/
theorem drive_after {ops : List Operation} (hops : ∀ op ∈ ops, op.Drives) (k : Nat) {m : Machine}
    (h : P m) : P ((m.performAll ops).after k) := by
  obtain ⟨hdriven, -⟩ := drive_invariant hstep hstart hstop hops h
  exact after_invariant hstep k hdriven

end Invariant

end Microboard.Machine
