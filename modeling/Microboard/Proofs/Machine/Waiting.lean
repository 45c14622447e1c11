import Microboard.Proofs.Machine.FlashEnd
import Microboard.Proofs.Machine.Fronts

/-!
# Waiting

While a delay lasts, a step that the machine takes while it is on passes one cycle and does nothing
else, and a step that it takes while it is off does nothing at all. Whatever the host does between
these steps, short of a load, neither the delay nor the program counter moves, so a delay costs
exactly its cycles: `delay_costs_its_cycles`.
-/

namespace Microboard.Machine

open Instruction

/-! ### Cycles that have passed -/

def awake (ms : List Machine) : List Machine :=
  ms.filter fun m => m.running

/-- From `m` to `n` so many cycles of the delay have passed, and the record to be fetched behind it
    is the same. -/
structure Waited (m : Machine) (cycles : Nat) (n : Machine) : Prop where
  pc_eq : n.pc = m.pc
  flash_eq : n.flash = m.flash
  delay_eq : n.delay.toNat + cycles = m.delay.toNat

namespace Waited

variable {m n : Machine} {cycles offset : Nat}

theorem refl (m : Machine) : Waited m 0 m :=
  ⟨rfl, rfl, rfl⟩

theorem congr (h : Waited m cycles n) {o : Machine}
    (ho : o.pc = n.pc ∧ o.flash = n.flash ∧ o.delay = n.delay) : Waited m cycles o := by
  obtain ⟨hpc, hflash, hdelay⟩ := ho
  exact ⟨hpc.trans h.pc_eq, hflash.trans h.flash_eq, by rw [hdelay, h.delay_eq]⟩

theorem live_eq (h : Waited m cycles n) (hoffset : m.offset? = some offset)
    (hlt : offset < flashCapacity) (hrunning : n.running = true) : n.live? = some offset := by
  refine live?_eq_some_iff.mpr ⟨hrunning, ?_, hlt⟩
  rw [Machine.offset?, h.pc_eq]
  exact hoffset

theorem delay_ne_zero (h : Waited m cycles n) (hcycles : cycles < m.delay.toNat) :
    n.delay ≠ 0 := by
  intro hzero
  have hdelay := h.delay_eq
  rw [hzero, UInt16.toNat_zero] at hdelay
  omega

theorem step (h : Waited m cycles n) (hoffset : m.offset? = some offset)
    (hlt : offset < flashCapacity) (hrunning : n.running = true)
    (hcycles : cycles < m.delay.toNat) : Waited m (cycles + 1) n.step.machine := by
  have hnonzero := h.delay_ne_zero hcycles
  rw [step_of_delay (h.live_eq hoffset hlt hrunning) hnonzero]
  refine ⟨h.pc_eq, h.flash_eq, ?_⟩
  have hone := toNat_sub_one hnonzero
  have hdelay := h.delay_eq
  simp only
  omega

end Waited

/-! ### Waiting through a session -/

/-- In `steps` between `n` and `o`, every step taken while the machine is on passes a cycle of the
    delay of `m`, until there is none left. -/
def Waits (m n : Machine) (steps : List Machine) (o : Machine) : Prop :=
  ∀ cycles, Waited m cycles n →
    (∀ k front, (awake steps)[k]? = some front → cycles + k ≤ m.delay.toNat →
      Waited m (cycles + k) front) ∧
    (cycles + (awake steps).length ≤ m.delay.toNat → Waited m (cycles + (awake steps).length) o)

namespace Waits

variable {m n o : Machine} {offset : Nat}

/-- What takes no step, and keeps the program counter, the flash and the delay, costs no cycle. -/
theorem idle (ho : o.pc = n.pc ∧ o.flash = n.flash ∧ o.delay = n.delay) : Waits m n [] o := by
  intro cycles h
  refine ⟨?_, fun _ => h.congr ho⟩
  intro k front hfront
  cases hfront

theorem append {p : Machine} {steps more : List Machine} (h : Waits m n steps o)
    (hmore : Waits m o more p) : Waits m n (steps ++ more) p := by
  intro cycles hcycles
  obtain ⟨hfronts, hend⟩ := h cycles hcycles
  have happend : awake (steps ++ more) = awake steps ++ awake more := List.filter_append ..
  rw [happend]
  constructor
  · intro k front hfront hk
    rcases Nat.lt_or_ge k (awake steps).length with hfirst | hlater
    · rw [List.getElem?_append_left hfirst] at hfront
      exact hfronts k front hfront hk
    · rw [List.getElem?_append_right hlater] at hfront
      obtain ⟨hrest, -⟩ := hmore _ (hend (by omega))
      have hsum : cycles + k =
          cycles + (awake steps).length + (k - (awake steps).length) := by omega
      rw [hsum]
      exact hrest _ front hfront (by omega)
  · intro hk
    rw [List.length_append, ← Nat.add_assoc] at hk ⊢
    exact (hmore _ (hend (by omega))).2 hk

variable (hoffset : m.offset? = some offset) (hlt : offset < flashCapacity)
include hoffset hlt

theorem step (n : Machine) : Waits m n [n] n.step.machine := by
  intro cycles h
  rcases hrunning : n.running with _ | _
  · have hnone : awake [n] = [] := by simp [awake, hrunning]
    rw [hnone, step_of_off hrunning]
    exact idle ⟨rfl, rfl, rfl⟩ cycles h
  · have hone : awake [n] = [n] := by simp [awake, hrunning]
    rw [hone]
    constructor
    · intro k front hfront hk
      cases k with
      | zero =>
        cases hfront
        exact h
      | succ k => cases hfront
    · intro hk
      exact h.step hoffset hlt hrunning (Nat.lt_of_succ_le hk)

theorem batch (budget : Nat) (n : Machine) :
    Waits m n (n.fronts budget) (n.run budget).machine :=
  run_fronts_relates (fun _ => idle ⟨rfl, rfl, rfl⟩) (step hoffset hlt) append budget n

theorem perform {op : Operation}
    (hop : ∀ image, op = .load image → flashCapacity < image.size) (n : Machine) :
    Waits m n (n.frontsOf op) (n.perform op).machine := by
  cases op with
  | load image =>
    rw [perform_load_of_error (Flash.load_of_lt (hop image rfl) n.flash)]
    exact idle ⟨rfl, rfl, rfl⟩
  | step => exact step hoffset hlt n
  | tick => exact batch hoffset hlt _ n
  | run budget => exact batch hoffset hlt budget n
  | _ => exact idle ⟨rfl, rfl, rfl⟩

theorem performAll {ops : List Operation}
    (hops : ∀ image, .load image ∈ ops → flashCapacity < image.size) (n : Machine) :
    Waits m n (n.frontsOfAll ops) (n.performAll ops) := by
  induction ops generalizing n with
  | nil => exact idle ⟨rfl, rfl, rfl⟩
  | cons op ops ih =>
    have hfirst : ∀ image, op = .load image → flashCapacity < image.size := by
      rintro image rfl
      exact hops image List.mem_cons_self
    exact append (perform hoffset hlt hfirst n)
      (ih (fun image himage => hops image (List.mem_cons_of_mem op himage)) _)

end Waits

/-- From a machine inside flash on, whatever the host does short of a load: a step taken while the
    machine is off changes nothing. Of the steps taken while it is on, each of the first so many as
    the delay has cycles passes one of them, tells how many are left, and changes nothing else;
    nothing happens, no sample is drawn, and what flash holds does not matter. The next one fetches
    the record at which the program counter stood all the time. -/
theorem delay_costs_its_cycles {m : Machine} {offset : Nat} (hoffset : m.offset? = some offset)
    (hlt : offset < flashCapacity) {ops : List Operation}
    (hops : ∀ image, .load image ∈ ops → flashCapacity < image.size) :
    let steps := m.frontsOfAll ops
    steps.map step = m.stepsOfAll ops ∧
      (∀ front ∈ steps, front.running = false → front.step = ⟨front, .ok .halted, []⟩) ∧
      (∀ k front, (awake steps)[k]? = some front → k < m.delay.toNat →
        ∃ remaining : UInt16, remaining.toNat = m.delay.toNat - 1 - k ∧
          front.step = ⟨{ front with delay := remaining }, .ok (.delayed remaining), []⟩ ∧
          ∀ flash, ({ front with flash } : Machine).step =
            ⟨{ front with flash, delay := remaining }, .ok (.delayed remaining), []⟩) ∧
      ∀ front, (awake steps)[m.delay.toNat]? = some front →
        front.pc = m.pc ∧ front.delay = 0 ∧
          (∀ cause, m.flash.record offset = .error cause → front.step = front.failing cause) ∧
          ∀ i length, m.flash.record offset = .ok (i, length) →
            front.step = front.retire i length := by
  intro steps
  obtain ⟨hwaited, -⟩ := Waits.performAll hoffset hlt hops m 0 (.refl m)
  have hawake : ∀ {k : Nat} {front : Machine}, (awake steps)[k]? = some front →
      front.running = true := by
    intro k front hfront
    exact (List.mem_filter.mp (List.mem_of_getElem? hfront)).2
  refine ⟨map_step_frontsOfAll ops m, fun front _ hoff => step_of_off hoff, ?_, ?_⟩
  · intro k front hfront hk
    have h := hwaited k front hfront (by omega)
    rw [Nat.zero_add] at h
    have hnonzero := h.delay_ne_zero hk
    have hlive := h.live_eq hoffset hlt (hawake hfront)
    refine ⟨front.delay - 1, ?_, step_of_delay hlive hnonzero, ?_⟩
    · have hone := toNat_sub_one hnonzero
      have hdelay := h.delay_eq
      omega
    · intro flash
      exact step_of_delay (m := { front with flash }) hlive hnonzero
  · intro front hfront
    have h := hwaited _ front hfront (by omega)
    rw [Nat.zero_add] at h
    have hlive := h.live_eq hoffset hlt (hawake hfront)
    have hzero : front.delay = 0 := by
      have hdelay := h.delay_eq
      apply UInt16.toNat_inj.mp
      rw [UInt16.toNat_zero]
      omega
    refine ⟨h.pc_eq, hzero, ?_, ?_⟩
    · intro cause hrecord
      rw [← h.flash_eq] at hrecord
      exact step_of_error hlive hzero hrecord
    · intro i length hrecord
      rw [← h.flash_eq] at hrecord
      exact step_of_ok hlive hzero hrecord

/-- A delay of two cycles has been executed, and in the middle of it the host switches the machine off
    for a step: the third step taken while the machine is on executes the next record. -/
theorem delay_costs_its_cycles_interrupted :
    let ops : List Operation := [.step, .stop, .step, .start, .step, .step]
    ∃ before m : Machine, before.step = ⟨m, .ok (.executed origin (.delay 2) false), []⟩ ∧
      m.delay = 2 ∧ m.offset? = some 4 ∧ 4 < flashCapacity ∧
      (∀ image, .load image ∈ ops → flashCapacity < image.size) ∧
      ∃ front, (awake (m.frontsOfAll ops))[2]? = some front ∧
        front.step.outcome = .ok (.executed (addressOf 4) (.loadImmediate 0 1) false) := by
  intro ops
  let code : List Instruction := [.delay 2, .loadImmediate 0 1]
  have hbytes : (bytes code).toArray.toList = bytes code := rfl
  obtain ⟨flash, -, hholds⟩ := Flash.holds_of_load hbytes (by decide) Flash.empty
  let start : Machine := { Machine.new {} with flash, running := true }
  have hat : start.At code (size []) := ⟨hholds, rfl, rfl, fun _ => rfl, rfl⟩
  have hcode : ∀ i ∈ code, i.Addressable := by
    simp [code, Addressable, Instruction.registers, registerCount]
  have hstart : start.step = start.retire (.delay 2) 2 :=
    hat.step_eq rfl (by decide) (hcode _ List.mem_cons_self)
  obtain ⟨m, hm⟩ : ∃ m, m = { start with pc := addressOf 4, delay := 2, counter := 1 } := ⟨_, rfl⟩
  have hset : start.step = ⟨m, .ok (.executed origin (.delay 2) false), []⟩ := by
    rw [hstart, hm]
    rfl
  have hrunning : m.running = true := by rw [hm]
  have hdelay : m.delay = 2 := by rw [hm]
  have hpc : m.pc = addressOf 4 := by rw [hm]
  have hoffset : m.offset? = some 4 := by
    rw [Machine.offset?, hpc]
    decide
  have hlt : 4 < flashCapacity := by decide
  have hops : ∀ image, .load image ∈ ops → flashCapacity < image.size := by simp [ops]
  have hrecord : m.flash.record (size [.delay 2]) = .ok (.loadImmediate 0 1, 2) := by
    rw [hm]
    exact Flash.Holds.record_of_append hholds (hcode _ (List.mem_cons_of_mem _ List.mem_cons_self))
  obtain ⟨-, -, hcycle, hnext⟩ := delay_costs_its_cycles hoffset hlt hops
  rw [hdelay] at hnext
  -- The machines in front of the four steps; the second one is off.
  let off := m.step.machine.stop
  let second := off.step.machine.start
  let third := second.step.machine
  have hfronts : awake (m.frontsOfAll ops) = m :: second :: awake [third] := by
    have hall : m.frontsOfAll ops = [m, off, second, third] := rfl
    rw [hall, awake, List.filter_cons_of_pos hrunning, List.filter_cons_of_neg Bool.false_ne_true,
      List.filter_cons_of_pos rfl, awake]
  have hthird : third.running = true := by
    have hsecond : (awake (m.frontsOfAll ops))[1]? = some second := by
      rw [hfronts]
      rfl
    obtain ⟨remaining, -, hcycle, -⟩ := hcycle 1 second hsecond (by rw [hdelay]; decide)
    show second.step.machine.running = true
    rw [hcycle]
    rfl
  have hnth : (awake (m.frontsOfAll ops))[2]? = some third := by
    rw [hfronts, awake, List.filter_cons_of_pos hthird]
    rfl
  obtain ⟨hpc', -, -, hretire⟩ := hnext third hnth
  have houtcome : third.step.outcome =
      .ok (.executed (addressOf 4) (.loadImmediate 0 1) false) := by
    rw [hretire _ _ hrecord, retire_outcome, hpc', hpc]
    rfl
  exact ⟨start, m, hset, hdelay, hoffset, hlt, hops, third, hnth, houtcome⟩

end Microboard.Machine
