import Microboard.Proofs.Machine.Batches
import Microboard.Proofs.Machine.Fetch

/-!
# What a fault leaves behind

A fault switches the machine off and leaves it at the record that could not be read. Until the host
loads an image or switches the machine on, every step halts: `fault_lasts_until_revived`. Switching
it on is enough to meet the same fault again, so a fault does not last until the next load:
`fault_not_final`.
-/

namespace Microboard.Machine

/-- The machine stands at the record that the fault tells of, and remembers the fault. -/
structure Stuck (fault : Fault) (m : Machine) : Prop where
  fault_eq : m.fault = some fault
  pc_eq : m.pc = fault.pc
  delay_eq : m.delay = 0
  record_eq : ∃ offset, m.offset? = some offset ∧ offset < flashCapacity ∧
    m.flash.record offset = .error fault.cause

/-- What the host can do to bring a machine back that has met a fault. -/
def Operation.Revives : Operation → Prop
  | .start => True
  | .load image => image.size ≤ flashCapacity
  | _ => False

namespace Stuck

variable {fault : Fault} {m : Machine}

theorem congr (h : m.Stuck fault) {n : Machine}
    (hn : n.fault = m.fault ∧ n.pc = m.pc ∧ n.delay = m.delay ∧ n.flash = m.flash) :
    n.Stuck fault := by
  obtain ⟨hfault, hpc, hdelay, hflash⟩ := hn
  refine ⟨hfault.trans h.fault_eq, hpc.trans h.pc_eq, hdelay.trans h.delay_eq, ?_⟩
  rw [offset?, hpc, hflash]
  exact h.record_eq

theorem of_step (h : m.step.outcome = .error fault) :
    m.step.machine.Stuck fault ∧ m.step.machine.running = false := by
  obtain ⟨hpc, hdelay, ⟨offset, hlive, hrecord⟩, hstep⟩ := step_eq_of_fault h
  obtain ⟨-, hoffset, hlt⟩ := live?_eq_some_iff.mp hlive
  rw [hstep]
  exact ⟨⟨rfl, hpc.symm, hdelay, offset, hoffset, hlt, hrecord⟩, rfl⟩

/-- However the host learns of a fault, this is the state behind it. -/
theorem of_reply {op : Operation} (h : (m.perform op).reply.fault? = some fault) :
    (m.perform op).machine.Stuck fault ∧ (m.perform op).machine.running = false := by
  have hrun : ∀ budget, (Reply.ran (m.run budget).result).fault? = some fault →
      (m.run budget).machine.Stuck fault ∧ (m.run budget).machine.running = false := by
    intro budget hbudget
    rcases hresult : (m.run budget).result with cause | report
    · rw [hresult] at hbudget
      cases hbudget
      obtain ⟨before, hstep, hmachine⟩ := exists_step_of_run_error hresult
      rw [hmachine]
      exact of_step hstep
    · rw [hresult] at hbudget
      cases hbudget
  cases op with
  | step =>
    rcases hs : m.step.outcome with cause | outcome
    · simp only [perform, hs] at h
      cases h
      exact of_step hs
    · simp only [perform, hs] at h
      cases h
  | tick => exact hrun _ h
  | run budget => exact hrun budget h
  | load image =>
    simp only [perform] at h
    split at h <;> cases h
  | _ => cases h

/-- Switched on, the machine can do nothing but meet its fault again. -/
theorem step_of_on (h : m.Stuck fault) (hrunning : m.running = true) :
    m.step = ⟨m.stop, .error fault, []⟩ := by
  obtain ⟨offset, hoffset, hlt, hrecord⟩ := h.record_eq
  have hlive : m.live? = some offset := live?_eq_some_iff.mpr ⟨hrunning, hoffset, hlt⟩
  -- The fault of this step is the one on record, so writing it down again changes nothing.
  have hsame : fault = ⟨fault.cause, m.pc⟩ := by rw [h.pc_eq]
  have hstop : m.stop = { m with running := false, fault := some ⟨fault.cause, m.pc⟩ } := by
    rw [← hsame, ← h.fault_eq]
    rfl
  rw [step_of_error hlive h.delay_eq hrecord, hstop, ← hsame]

theorem start (h : m.Stuck fault) : m.start.Stuck fault :=
  h.congr ⟨rfl, rfl, rfl, rfl⟩

theorem faultsOf_restart (h : m.Stuck fault) : m.faultsOf [.start, .step] = [fault] := by
  have hstep : (m.start.perform .step).reply.fault? = some fault := by
    simp only [Machine.perform, h.start.step_of_on rfl]
    rfl
  rw [faultsOf_cons, faultsOf_cons]
  show [] ++ ((m.start.perform .step).reply.fault?.toList ++ []) = [fault]
  rw [hstep]
  rfl

theorem step (h : m.Stuck fault) : m.step.machine.Stuck fault := by
  rcases hrunning : m.running with _ | _
  · rw [step_of_off hrunning]
    exact h
  · rw [h.step_of_on hrunning]
    exact h.congr ⟨rfl, rfl, rfl, rfl⟩

/-- Only a load that fits moves the machine on: starting it does not. -/
theorem perform (h : m.Stuck fault) {op : Operation}
    (hop : ∀ image, op = .load image → flashCapacity < image.size) :
    (m.perform op).machine.Stuck fault := by
  cases op with
  | load image =>
    rw [perform_load_of_error (Flash.load_of_lt (hop image rfl) m.flash)]
    exact h
  | step => exact h.step
  | tick => exact run_invariant (fun _ hm => hm.step) _ h
  | run budget => exact run_invariant (fun _ hm => hm.step) budget h
  | _ => exact h.congr ⟨rfl, rfl, rfl, rfl⟩

end Stuck

/-! ### A machine that is not switched on -/

/-- A response that tells of nothing done: the machine is off, and a step halted. -/
structure Response.Idle (r : Response) : Prop where
  off : r.machine.running = false
  fault_eq : r.reply.fault? = none
  events_eq : r.events = []
  halted : ∀ outcome, r.reply = .stepped outcome → outcome = .ok .halted

theorem Operation.large_of_not_revives {op : Operation} (hop : ¬ op.Revives) (image : Array UInt8)
    (hload : op = .load image) : flashCapacity < image.size := by
  subst hload
  exact Nat.lt_of_not_le hop

theorem perform_of_off {m : Machine} (h : m.running = false) {op : Operation}
    (hop : ¬ op.Revives) : (m.perform op).Idle := by
  cases op with
  | load image =>
    have hlarge := Operation.large_of_not_revives hop image rfl
    rw [perform_load_of_error (Flash.load_of_lt hlarge m.flash)]
    exact ⟨h, rfl, rfl, fun _ houtcome => by cases houtcome⟩
  | start => exact absurd trivial hop
  | stop => exact ⟨rfl, rfl, rfl, fun _ houtcome => by cases houtcome⟩
  | step =>
    rw [perform, step_of_off h]
    exact ⟨h, rfl, rfl, fun _ houtcome => by cases houtcome; rfl⟩
  | tick =>
    rw [perform, tick, run_of_off h]
    exact ⟨h, rfl, rfl, fun _ houtcome => by cases houtcome⟩
  | run budget =>
    rw [perform, run_of_off h]
    exact ⟨h, rfl, rfl, fun _ houtcome => by cases houtcome⟩
  | _ => exact ⟨h, rfl, rfl, fun _ houtcome => by cases houtcome⟩

/-! ### How long a fault lasts -/

/-- Without an image, a machine finds a zero at the first byte of flash. -/
theorem step_of_blank (settings : Settings) :
    (Machine.new settings).start.step.outcome = .error ⟨.unknownOpcode 0, origin⟩ := by
  have hholds : Flash.empty.Holds [] :=
    ⟨Nat.zero_le _, fun i => Flash.read_of_loaded_le (Nat.zero_le i)⟩
  have hlive : (Machine.new settings).start.live? = some 0 :=
    live_of_running rfl rfl (by decide)
  rw [step_of_error hlive rfl hholds.record_size]
  rfl

/-- A fault that the host is told of, by a step or by a batch, switches the machine off. From then
    on, until the host switches it on or loads an image that fits, every step halts, no operation
    tells of a fault, and nothing happens. The fault stays on record, and is what a step meets once
    the machine is switched on again. -/
theorem fault_lasts_until_revived {m : Machine} {op : Operation} {fault : Fault}
    (hfault : (m.perform op).reply.fault? = some fault) {ops : List Operation}
    (hops : ∀ op ∈ ops, ¬ op.Revives) :
    let failed := (m.perform op).machine
    let final := failed.performAll ops
    (∀ r ∈ failed.responses ops, r.Idle) ∧
      final.running = false ∧ final.fault = some fault ∧
      final.start.step = ⟨final, .error fault, []⟩ := by
  intro failed final
  have hkept : ∀ n : Machine, ∀ o ∈ ops, n.Stuck fault ∧ n.running = false →
      ((n.perform o).machine.Stuck fault ∧ (n.perform o).machine.running = false) ∧
        (n.perform o).Idle := by
    rintro n o ho ⟨hstuck, hoff⟩
    have hidle := perform_of_off hoff (hops o ho)
    exact ⟨⟨hstuck.perform (Operation.large_of_not_revives (hops o ho)), hidle.off⟩, hidle⟩
  obtain ⟨⟨hstuck, hoff⟩, hidle⟩ := responses_invariant hkept failed (Stuck.of_reply hfault)
  have hstop : final.start.stop = final := stop_of_off hoff
  refine ⟨hidle, hoff, hstuck.fault_eq, ?_⟩
  rw [hstuck.start.step_of_on rfl, hstop]

/-- A machine that has failed on empty flash, and is then stepped, run, and given a register. -/
theorem fault_lasts_until_revived_blank :
    let m := (Machine.new {}).start
    let fault : Fault := ⟨.unknownOpcode 0, origin⟩
    let ops : List Operation := [.step, .run 5, .setRegister 3 7, .stop, .tick]
    (m.perform .step).reply.fault? = some fault ∧ (∀ op ∈ ops, ¬ op.Revives) ∧
      (∀ r ∈ (m.perform .step).machine.responses ops, r.Idle) ∧
      ((m.perform .step).machine.performAll ops).start.step.outcome = .error fault := by
  intro m fault ops
  have hfault : (m.perform .step).reply.fault? = some fault := by
    simp only [perform, m, step_of_blank]
    rfl
  have hops : ∀ op ∈ ops, ¬ op.Revives := by
    simp [ops, Operation.Revives]
  obtain ⟨hidle, -, -, hagain⟩ := fault_lasts_until_revived hfault hops
  exact ⟨hfault, hops, hidle, by rw [hagain]⟩

/-- A fault does not last until the next load: the host that switches the machine on and lets it
    step is told of it again. -/
theorem fault_not_final :
    ¬ ∀ (m : Machine) (op : Operation) (fault : Fault) (ops : List Operation),
      (m.perform op).reply.fault? = some fault →
      (∀ image, .load image ∈ ops → flashCapacity < image.size) →
      (∀ r ∈ (m.perform op).machine.responses ops,
        ∀ outcome, r.reply = .stepped outcome → outcome = .ok .halted) ∧
      (m.perform op).machine.faultsOf ops = [] := by
  intro hall
  let m := (Machine.new {}).start
  have hstep : m.step.outcome = .error ⟨.unknownOpcode 0, origin⟩ := step_of_blank {}
  have hfault : (m.perform .step).reply.fault? = some ⟨.unknownOpcode 0, origin⟩ := by
    simp only [perform, hstep]
    rfl
  obtain ⟨-, hnone⟩ := hall m .step _ [.start, .step] hfault (by simp)
  rw [(Stuck.of_reply hfault).1.faultsOf_restart] at hnone
  cases hnone

end Microboard.Machine
