import Microboard.Proofs.Firmware.Loops
import Microboard.Proofs.Firmware.Pruning
import Microboard.Proofs.Machine.Batches
import Microboard.Proofs.Machine.Cycles

/-!
# Programs without loops come to their end

In code without a loop every jump leads forward, so control only moves towards the end. What has
been executed is therefore a part of the listing, in its order, and what may still be executed lies
ahead: `Descends` keeps both, with a bound on the steps that are left. The bound falls with every
step, so the machine runs off the end of the code and stops there: `loop_free_terminates`.
-/

namespace Microboard

open Instruction

/-! ### Programs without a loop -/

namespace Statement

mutual

def LoopFree : Statement → Prop
  | .loop _ => False
  | .branch _ _ _ body => AllLoopFree body
  | _ => True

def AllLoopFree : List Statement → Prop
  | [] => True
  | s :: rest => s.LoopFree ∧ AllLoopFree rest

end

mutual

theorem LoopFree.loops_eq {s : Statement} (h : s.LoopFree) (stage : Stage) (address : Nat) :
    (s.resolve.arrange stage).1.loops address = [] := by
  have hsimple : s.Simple → (s.resolve.arrange stage).1.loops address = [] := by
    intro hbody
    rcases resolve_cases hbody with ⟨-, hcode⟩ | ⟨-, reason, hreason⟩
    · obtain ⟨code, hcode⟩ := hcode stage
      rw [hcode, Block.loops]
    · rw [hreason, Command.arrange, Block.loops]
  cases s with
  | branch left comparison right body =>
    rcases Variable.resolve_cases left with ⟨-, v, hv⟩ | ⟨-, reason, hreason⟩
    · rw [resolve, hv]
      exact AllLoopFree.loops_eq h stage _
    · rw [resolve, hreason]
      rfl
  | loop body => cases h
  | _ => exact hsimple trivial

theorem AllLoopFree.loops_eq {ss : List Statement} (h : AllLoopFree ss) (stage : Stage)
    (address : Nat) :
    Block.loopsAll address (Command.arrangeAll stage (resolveAll ss)).1 = [] := by
  cases ss with
  | nil => rfl
  | cons s rest =>
    simp only [resolveAll, Command.arrangeAll, Block.loopsAll, List.append_eq_nil_iff]
    constructor
    · exact LoopFree.loops_eq h.1 stage address
    · exact AllLoopFree.loops_eq h.2 _ _

end

end Statement

def Program.LoopFree (p : Program) : Prop :=
  Statement.AllLoopFree p

/-! ### Control that only moves forward -/

/-- From any instruction, control goes on at a later place of the code: some of what follows is
    skipped, and the rest is still to come. -/
def LeadsForward (code : List Instruction) : Prop :=
  ∀ before i behind, code = before ++ i :: behind → ∀ flag, ∃ skipped rest,
    behind = skipped ++ rest ∧ i.next flag (size before) = size (before ++ i :: skipped)

/-- A boundary behind the start of an instruction lies behind the instruction. -/
theorem Instruction.Boundary.skip {before behind : List Instruction} {i : Instruction}
    {address : Nat} (h : Boundary 0 (before ++ i :: behind) address) (hlt : size before < address) :
    ∃ skipped rest, behind = skipped ++ rest ∧ address = size (before ++ i :: skipped) := by
  obtain ⟨front, rest, hcode, haddress⟩ := h
  rw [Nat.zero_add] at haddress
  rcases List.append_eq_append_iff.mp hcode with ⟨middle, rfl, hbehind⟩ | ⟨middle, hbefore, -⟩
  · cases middle with
    | nil =>
      rw [List.append_nil] at haddress
      omega
    | cons k skipped =>
      rw [List.cons_append, List.cons.injEq] at hbehind
      obtain ⟨rfl, hrest⟩ := hbehind
      exact ⟨skipped, rest, hrest, haddress⟩
  · rw [hbefore, size_append] at hlt
    omega

theorem Program.not_backward {p : Program} (hfree : p.LoopFree) {j : Jump} (hj : j ∈ p.jumps) :
    ¬ j.Backward := by
  have hloops : p.loops = [] := Statement.AllLoopFree.loops_eq hfree {} 0
  have hnone : p.jumps.filter (·.Backward) = p.loops.map LoopSpan.jump :=
    Block.backward_jumpsAll 0 p.blocks
  rw [hloops, List.map_nil, List.filter_eq_nil_iff] at hnone
  intro hbackward
  exact hnone j hj (decide_eq_true hbackward)

theorem Program.leadsForward {p : Program} (hfree : p.LoopFree)
    (hoverflow : overflowsOf p.compile.diagnostics = []) : LeadsForward p.code := by
  intro before i behind hcode flag
  have hinside := p.jumpsInside hoverflow
  rw [hcode] at hinside
  apply (hinside.next flag).skip
  rcases i.next_cases flag (size before) with hnext | ⟨condition, target, rfl, hnext⟩
  · have hpos := recordLength_pos i.opcode
    omega
  · have hmem : (size before, .jump condition target) ∈ placed 0 p.code := by
      have happend := mem_placed_append 0 before behind (.jump condition target)
      rwa [Nat.zero_add, ← hcode] at happend
    obtain ⟨j, hj, haddress, rfl⟩ := Block.exists_jump p.blocks_plain hmem
    rw [hnext, Jump.toNat_target (p.not_overflows hoverflow hj), ← haddress]
    exact Nat.lt_of_not_le (Program.not_backward hfree hj)

/-! ### What is executed, and how long it takes -/

/-- The instruction that a step has executed, with its address. -/
def Step.executedAt? (s : Step) : Option (UInt32 × Instruction) :=
  match s.outcome with
  | .ok (.executed pc i _) => some (pc, i)
  | _ => none

namespace Instruction

def sites (code : List Instruction) : List (UInt32 × Instruction) :=
  (placed 0 code).map fun (offset, i) => (addressOf offset, i)

theorem sites_append (before behind : List Instruction) :
    sites (before ++ behind) = sites before
      ++ (placed (size before) behind).map fun (offset, i) => (addressOf offset, i) := by
  rw [sites, sites, placed_append, List.map_append, Nat.zero_add]

theorem pairwise_sites {code : List Instruction} (hfits : size code ≤ flashCapacity) :
    (sites code).Pairwise fun a b => a.1 < b.1 := by
  rw [sites, List.pairwise_map]
  refine (pairwise_placed 0 code).imp_of_mem ?_
  rintro ⟨a, i⟩ ⟨b, k⟩ ha hb hlt
  have hlea := (mem_placed_lt ha).2
  have hleb := (mem_placed_lt hb).2
  rw [UInt32.lt_iff_toNat_lt, toNat_addressOf (by omega), toNat_addressOf (by omega)]
  exact Nat.add_lt_add_left hlt _

theorem map_cycles_placed (code : List Instruction) :
    (placed 0 code).map (fun (_, i) => i.cycles) = code.map cycles := by
  calc (placed 0 code).map (fun (_, i) => i.cycles)
      = ((placed 0 code).map Prod.snd).map cycles := by
        rw [List.map_map]
        rfl
    _ = code.map cycles := by rw [map_snd_placed]

end Instruction

namespace Machine

/-- The operations that neither load anything nor turn the switch. -/
def Operation.LetsRun : Operation → Prop
  | .load _ | .start | .stop => False
  | .step | .tick | .run _ | .setRegister .. | .setLevel .. | .setMode .. | .connect _ => True

theorem settings_perform {op : Operation} (hop : op.LetsRun) (m : Machine) :
    (m.perform op).machine.settings = m.settings := by
  have hrun : ∀ budget, (m.run budget).machine.settings = m.settings := by
    intro budget
    rw [(run_eq budget m).1, settings_after]
  cases op with
  | load image => cases hop
  | step => exact m.step_frame.1
  | tick => exact hrun _
  | run budget => exact hrun budget
  | _ => rfl

/-! ### On the way to the end -/

/-- The machine is on. It has executed a part of what lies behind it, and needs fewer than so many
    steps for what lies ahead. -/
structure Going (code : List Instruction) (log : List (UInt32 × Instruction)) (left : Nat)
    (m : Machine) : Prop where
  holds : m.flash.Holds code
  running_eq : m.running = true
  ahead : ∃ before behind, code = before ++ behind ∧ m.pc = addressOf (size before) ∧
    log.Sublist (sites before) ∧ m.delay.toNat + duration behind < left

/-- The machine has run off the end of the code, and has executed a part of it. -/
structure Ended (code : List Instruction) (log : List (UInt32 × Instruction)) (m : Machine) :
    Prop where
  running_eq : m.running = false
  fault_eq : m.fault = some (endFault code)
  executed : log.Sublist (sites code)

def Descends (code : List Instruction) (log : List (UInt32 × Instruction)) (left : Nat)
    (m : Machine) : Prop :=
  Going code log left m ∨ Ended code log m

section Descent

variable {code : List Instruction} {log : List (UInt32 × Instruction)} {left : Nat} {m : Machine}

/-- At the start of code nothing has been executed, and all of it lies ahead. -/
theorem At.descends (h : m.At code 0) (hlt : size code < flashCapacity) :
    Descends code [] (duration code + 1) m := by
  left
  refine ⟨h.holds, h.running_eq, [], code, rfl, h.pc_eq, List.Sublist.refl [], ?_⟩
  rw [h.ready (Nat.zero_lt_of_lt hlt), UInt16.toNat_zero]
  omega

theorem Going.delayed (h : Going code log (left + 1) m) (hdelay : m.delay ≠ 0) :
    Going code log left { m with delay := m.delay - 1 } := by
  obtain ⟨before, behind, hcode, hpc, hlog, hleft⟩ := h.ahead
  have hfewer := toNat_sub_one hdelay
  refine ⟨h.holds, h.running_eq, before, behind, hcode, hpc, hlog, ?_⟩
  show (m.delay - 1).toNat + duration behind < left
  omega

theorem Going.step (hforward : LeadsForward code) (hcompiled : ∀ i ∈ code, i.Compiled)
    (hlt : size code < flashCapacity) (h : Going code log (left + 1) m) :
    Descends code (log ++ [m.step].filterMap Step.executedAt?) left m.step.machine := by
  have hdelayed : m.delay ≠ 0 →
      m.step = ⟨{ m with delay := m.delay - 1 }, .ok (.delayed (m.delay - 1)), []⟩ →
        Descends code (log ++ [m.step].filterMap Step.executedAt?) left m.step.machine := by
    intro hdelay hs
    rw [hs]
    show Descends code (log ++ []) left _
    rw [List.append_nil]
    exact Or.inl (h.delayed hdelay)
  have hholds := h.holds
  obtain ⟨before, behind, hcode, hpc, hlog, hleft⟩ := h.ahead
  cases behind with
  | nil =>
    rw [List.append_nil] at hcode
    rw [← hcode] at hpc hlog
    have hlive : m.live? = some (size code) := live_of_running h.running_eq hpc hlt
    by_cases hdelay : m.delay = 0
    · rw [step_of_error hlive hdelay hholds.record_size]
      show Descends code (log ++ []) left _
      rw [List.append_nil]
      right
      exact ⟨rfl, by rw [endFault, hpc], hlog⟩
    · exact hdelayed hdelay (step_of_delay hlive hdelay)
  | cons i behind =>
    have hi : i.Compiled := hcompiled i (by simp [hcode])
    rw [hcode] at hholds
    rcases step_at_instruction hholds hi.addressable h.running_eq hpc with
      ⟨hdelay, hs⟩ | ⟨hdelay, hs⟩
    · exact hdelayed hdelay hs
    · obtain ⟨skipped, rest, rfl, hnext⟩ := hforward before i behind hcode m.flag
      obtain ⟨-, hflash, -, hon, -, -, -⟩ := m.execute_frame i
      rw [hs, hnext]
      left
      -- What is skipped lies behind the machine from now on, though it has not been executed.
      refine ⟨?_, hon.trans h.running_eq, before ++ i :: skipped, rest, by simp [hcode], rfl, ?_,
        ?_⟩
      · show (m.execute i).1.flash.Holds code
        rw [hflash]
        exact h.holds
      · show (log ++ [(m.pc, i)]).Sublist _
        rw [sites_append, placed, List.map_cons, hpc]
        exact hlog.append (List.Sublist.cons_cons _ (List.nil_sublist _))
      · show (m.execute i).1.delay.toNat + duration rest < left
        rw [hdelay, duration_cons, duration_append] at hleft
        rw [delay_execute hdelay i]
        omega

namespace Descends

theorem of_off (h : Descends code log left m) (hoff : m.running = false) : Ended code log m := by
  rcases h with hgoing | hended
  · rw [hgoing.running_eq] at hoff
    cases hoff
  · exact hended

theorem weaken (h : Descends code log left m) {more : Nat} (hle : left ≤ more) :
    Descends code log more m := by
  rcases h with ⟨hholds, hrunning, before, behind, hcode, hpc, hlog, hleft⟩ | hended
  · exact Or.inl ⟨hholds, hrunning, before, behind, hcode, hpc, hlog, by omega⟩
  · exact Or.inr hended

/-- With no step left, the machine has come to the end. -/
theorem ended (h : Descends code log 0 m) : Ended code log m := by
  rcases h with hgoing | hended
  · obtain ⟨_, _, -, -, -, hleft⟩ := hgoing.ahead
    omega
  · exact hended

theorem executed (h : Descends code log left m) : log.Sublist (sites code) := by
  rcases h with hgoing | hended
  · obtain ⟨before, behind, rfl, -, hlog, -⟩ := hgoing.ahead
    rw [sites_append]
    exact hlog.trans (List.sublist_append_left _ _)
  · exact hended.executed

theorem congr (h : Descends code log left m) {n : Machine}
    (hn : n.flash = m.flash ∧ n.running = m.running ∧ n.pc = m.pc ∧ n.delay = m.delay ∧
      n.fault = m.fault) : Descends code log left n := by
  obtain ⟨hflash, hrunning, hpc, hdelay, hfault⟩ := hn
  rcases h with ⟨hholds, hon, hahead⟩ | ⟨hoff, hend, hlog⟩
  · left
    refine ⟨hflash ▸ hholds, hrunning.trans hon, ?_⟩
    rw [hpc, hdelay]
    exact hahead
  · exact Or.inr ⟨hrunning.trans hoff, hfault.trans hend, hlog⟩

variable (hforward : LeadsForward code) (hcompiled : ∀ i ∈ code, i.Compiled)
  (hlt : size code < flashCapacity)
include hforward hcompiled hlt

/-- A step of the machine is one fewer that is left. -/
theorem step (h : Descends code log (left + 1) m) :
    Descends code (log ++ [m.step].filterMap Step.executedAt?) left m.step.machine := by
  rcases h with hgoing | hended
  · exact hgoing.step hforward hcompiled hlt
  · rw [step_of_off hended.running_eq]
    show Descends code (log ++ []) left m
    rw [List.append_nil]
    exact Or.inr hended

theorem taken (budget : Nat) (h : Descends code log (left + budget) m) :
    Descends code (log ++ (m.taken budget).filterMap Step.executedAt?) left (m.after budget) := by
  induction budget generalizing log m with
  | zero =>
    rw [Machine.taken, List.filterMap_nil, List.append_nil]
    exact h
  | succ budget ih =>
    cases hrunning : m.running with
    | false =>
      rw [taken_of_off hrunning, after_of_off hrunning, List.filterMap_nil, List.append_nil]
      exact Or.inr (h.of_off hrunning)
    | true =>
      have hnext := ih (h.step hforward hcompiled hlt)
      rw [Machine.taken, hrunning, if_pos rfl, ← List.singleton_append, List.filterMap_append,
        ← List.append_assoc]
      exact hnext

theorem perform {op : Operation} (hop : op.LetsRun)
    (h : Descends code log (left + op.budget m.settings) m) :
    Descends code (log ++ (m.stepsOf op).filterMap Step.executedAt?) left
      (m.perform op).machine := by
  have hrun : ∀ budget, Descends code log (left + budget) m →
      Descends code (log ++ (m.taken budget).filterMap Step.executedAt?) left
        (m.run budget).machine := by
    intro budget hbudget
    rw [(run_eq budget m).1]
    exact hbudget.taken hforward hcompiled hlt budget
  cases op with
  | load image => cases hop
  | start => cases hop
  | stop => cases hop
  | step => exact h.step hforward hcompiled hlt
  | tick => exact hrun _ h
  | run budget => exact hrun budget h
  | _ =>
    show Descends code (log ++ []) left _
    rw [List.append_nil]
    exact h.congr ⟨rfl, rfl, rfl, rfl, rfl⟩

theorem performAll {ops : List Operation} (hops : ∀ op ∈ ops, op.LetsRun)
    (h : Descends code log (left + (ops.map (Operation.budget m.settings)).sum) m) :
    Descends code (log ++ (m.stepsOfAll ops).filterMap Step.executedAt?) left
      (m.performAll ops) := by
  induction ops generalizing log m with
  | nil =>
    rw [stepsOfAll, List.filterMap_nil, List.append_nil]
    exact h
  | cons op ops ih =>
    have hop := hops op List.mem_cons_self
    rw [List.map_cons, List.sum_cons, Nat.add_comm (op.budget _), ← Nat.add_assoc] at h
    have hfirst := h.perform hforward hcompiled hlt hop
    rw [← settings_perform hop m] at hfirst
    rw [stepsOfAll, List.filterMap_append, ← List.append_assoc, performAll_cons]
    exact ih (fun o ho => hops o (List.mem_cons_of_mem op ho)) hfirst

end Descends

end Descent

/-- Let a program without a loop compile without an overflow, to firmware that does not fill flash.
    Loaded into any machine and switched on, the firmware comes to its end, whatever the host writes
    to the registers and pins meanwhile, so whichever way the comparisons go. What is executed is a
    part of the listing in its order, each instruction at most once. As soon as the machine has been
    given one step for each instruction, one for each cycle of a delay and one more, it is off, with
    the fault of the zero behind the firmware. -/
theorem loop_free_terminates (p : Program) (hfree : p.LoopFree)
    (hoverflow : overflowsOf p.compile.diagnostics = [])
    (hfits : p.compile.code.size < flashCapacity) (m : Machine) :
    let entries := (Listing.ofImage p.compile.code.toList).entries
    let bound := entries.length + (entries.map fun (_, i) => i.cycles).sum + 1
    ∃ loaded, m.load p.compile.code = .ok loaded ∧
      ∀ ops : List Operation, (∀ op ∈ ops, op.LetsRun) →
        let executed := (loaded.start.stepsOfAll ops).filterMap Step.executedAt?
        let final := loaded.start.performAll ops
        executed.Sublist (entries.map fun (offset, i) => (origin + UInt32.ofNat offset, i)) ∧
        executed.Pairwise (fun a b => a.1 < b.1) ∧
        (bound ≤ (ops.map (Operation.budget m.settings)).sum →
          final.running = false ∧
            final.fault =
              some ⟨.unknownOpcode 0, origin + UInt32.ofNat p.compile.code.size⟩) := by
  intro entries bound
  obtain ⟨flash, hload, hat⟩ := exists_at_start (toList_compile_code p) (Nat.le_of_lt hfits) m
  refine ⟨m.withFlash flash, hload, ?_⟩
  intro ops hops executed final
  have hentries : entries = placed 0 p.code := by
    simp only [entries, ofImage_compile]
  have hlt : size p.code < flashCapacity := by
    rw [p.size_code]
    exact hfits
  have hbound : bound = duration p.code + 1 := by
    show entries.length + (entries.map fun (_, i) => i.cycles).sum + 1 = _
    rw [hentries, map_cycles_placed, length_placed, duration]
  have hstart : Descends p.code [] bound (m.withFlash flash).start := by
    rw [hbound]
    exact hat.descends hlt
  have hdescends : ∀ left,
      bound ≤ left + (ops.map (Operation.budget m.settings)).sum →
        Descends p.code executed left final := by
    intro left hleft
    have henough : Descends p.code []
        (left + (ops.map (Operation.budget (m.withFlash flash).start.settings)).sum)
        (m.withFlash flash).start := hstart.weaken hleft
    exact henough.performAll (Program.leadsForward hfree hoverflow) p.code_compiled hlt hops
  have hexecuted := (hdescends bound (Nat.le_add_right _ _)).executed
  refine ⟨?_, (pairwise_sites (Nat.le_of_lt hlt)).sublist hexecuted, ?_⟩
  · rw [hentries]
    exact hexecuted
  · intro hbudget
    have hended := (hdescends 0 (by omega)).ended
    refine ⟨hended.running_eq, ?_⟩
    rw [hended.fault_eq, endFault, p.size_code]
    rfl

/-- A delay and a conditional inside a conditional. The host writes a register before the second
    comparison, and the end comes after the five steps up to there and thirty more. -/
theorem loop_free_terminates_nested :
    let p : Program :=
      [.branch "x" .equal 0 [.delay 3, .branch "y" .greater 5 [.clear]], .print "A"]
    let ops : List Operation := [.run 5, .setRegister 1 9, .run 30]
    p.LoopFree ∧ overflowsOf p.compile.diagnostics = [] ∧
      p.compile.code.size < flashCapacity ∧ (∀ op ∈ ops, op.LetsRun) ∧
      ∃ loaded, (Machine.new {}).load p.compile.code = .ok loaded ∧
        (loaded.start.performAll ops).fault =
          some ⟨.unknownOpcode 0, origin + UInt32.ofNat p.compile.code.size⟩ := by
  intro p ops
  have hfree : p.LoopFree := ⟨⟨trivial, ⟨trivial, trivial⟩, trivial⟩, trivial, trivial⟩
  have hoverflow : overflowsOf p.compile.diagnostics = [] := by decide
  have hfits : p.compile.code.size < flashCapacity := by decide
  have hops : ∀ op ∈ ops, op.LetsRun := by simp [ops, Operation.LetsRun]
  obtain ⟨loaded, hload, hruns⟩ :=
    loop_free_terminates p hfree hoverflow hfits (Machine.new {})
  obtain ⟨-, -, hend⟩ := hruns ops hops
  refine ⟨hfree, hoverflow, hfits, hops, loaded, hload, (hend ?_).2⟩
  rw [ofImage_compile]
  decide

end Machine

end Microboard
