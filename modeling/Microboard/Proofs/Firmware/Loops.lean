import Microboard.Proofs.Firmware.Containment
import Microboard.Proofs.Firmware.Control
import Microboard.Proofs.Machine.Standstill

/-!
# Loops are never left

The jump back closes a loop off. Whatever stands in its body, also a conditional that is skipped at
its very end, leads at most to the jump back, and the jump back leads to the start (`Encloses`). So
once control has come to the start of a loop it stays in the loop, however the host drives the
machine: `loop_never_left`. The loops of a program are the jumps of its firmware that do not lead
forward: `Program.loops_listing`.
-/

namespace Microboard

open Instruction

/-! ### The loops of a program -/

/-- A loop in code: where its body starts, and where the jump back to the start stands. -/
structure LoopSpan where
  start : Nat
  back : Nat
deriving DecidableEq, Repr

namespace LoopSpan

/-- The offset just past the jump back. -/
def stop (l : LoopSpan) : Nat :=
  l.back + Jump.size

def jump (l : LoopSpan) : Jump :=
  ⟨l.back, .always, l.start⟩

end LoopSpan

mutual

/-- The loops in a block that starts at an address, in the order of their jumps back. -/
def Block.loops (address : Nat) : Block → List LoopSpan
  | .straight _ | .note .. => []
  | .branch left comparison right body =>
    Block.loopsAll (bodyAddress address left comparison right) body
  | .loop first body =>
    Block.loopsAll (loopAddress address first) body
      ++ [⟨loopAddress address first, loopAddress address first + Block.sizeAll body⟩]

def Block.loopsAll (address : Nat) : List Block → List LoopSpan
  | [] => []
  | b :: rest => b.loops address ++ Block.loopsAll (address + b.size) rest

end

def Program.loops (p : Program) : List LoopSpan :=
  Block.loopsAll 0 p.blocks

/-! ### Jumps that do not lead forward -/

def Jump.Backward (j : Jump) : Prop :=
  j.target ≤ j.address

instance (j : Jump) : Decidable j.Backward :=
  inferInstanceAs (Decidable (_ ≤ _))

theorem Jump.backward_row {address target : Nat} {conditions : List Condition}
    (h : address + size * conditions.length ≤ target) :
    (row address target conditions).filter (·.Backward) = [] := by
  induction conditions generalizing address with
  | nil => rfl
  | cons c conditions ih =>
    rw [List.length_cons, Nat.mul_succ] at h
    have hpos : 0 < size := Nat.lt_of_lt_of_le Nat.two_pos (recordLength_pos _)
    have hforward : ¬ (Jump.mk address c target).Backward := by
      show ¬ target ≤ address
      omega
    rw [row, List.filter_cons_of_neg (by simpa using hforward)]
    apply ih
    omega

theorem backward_skipJumps (address : Nat) (left : Variable) (comparison : Comparison)
    (right : UInt8) (body : List Block) :
    (skipJumps address left comparison right body).filter (·.Backward) = [] :=
  Jump.backward_row (Nat.le_add_right _ _)

theorem backward_setupJumps (address : Nat) (first : Bool) :
    (setupJumps address first).filter (·.Backward) = [] := by
  cases first with
  | false => rfl
  | true =>
    have hrow : setupJumps address true = Jump.row address (address + Jump.size) [.always] := rfl
    rw [hrow]
    exact Jump.backward_row (Nat.le_refl _)

mutual

/-- The loops of a block are its jumps that do not lead forward. -/
theorem Block.backward_jumps (address : Nat) (b : Block) :
    (b.jumps address).filter (·.Backward) = (b.loops address).map LoopSpan.jump := by
  cases b with
  | straight code => rfl
  | branch left comparison right body =>
    rw [Block.jumps, Block.loops, List.filter_append, backward_skipJumps, List.nil_append]
    exact Block.backward_jumpsAll _ body
  | loop first body =>
    have hback : (backJump address first body).Backward := Nat.le_add_right _ _
    have hkept : [backJump address first body].filter (·.Backward) =
        [backJump address first body] := by
      simp only [List.filter_cons, hback, decide_true, if_true, List.filter_nil]
    rw [Block.jumps, Block.loops, List.filter_append, List.filter_append, backward_setupJumps,
      List.nil_append, Block.backward_jumpsAll _ body, List.map_append, hkept]
    rfl
  | note kind reason => rfl

theorem Block.backward_jumpsAll (address : Nat) (blocks : List Block) :
    (Block.jumpsAll address blocks).filter (·.Backward) =
      (Block.loopsAll address blocks).map LoopSpan.jump := by
  cases blocks with
  | nil => rfl
  | cons b rest =>
    rw [Block.jumpsAll, Block.loopsAll, List.filter_append, List.map_append,
      Block.backward_jumps address b, Block.backward_jumpsAll _ rest]

end

/-- Without an overflow, the jumps in the listing that do not lead forward are those at the ends of
    the loops. -/
theorem Program.loops_listing (p : Program) (hoverflow : overflowsOf p.compile.diagnostics = []) :
    (jumpsOf (Listing.ofImage p.compile.code.toList).entries).filter
        (fun (offset, _, target) => target.toNat ≤ offset) =
      p.loops.map fun l => (l.back, .always, UInt8.ofNat l.start) := by
  have hsame : ∀ j ∈ p.jumps, decide ((UInt8.ofNat j.target).toNat ≤ j.address) =
      decide j.Backward := by
    intro j hj
    rw [Jump.toNat_target (p.not_overflows hoverflow hj)]
    rfl
  have hloops : p.jumps.filter (·.Backward) = p.loops.map LoopSpan.jump :=
    Block.backward_jumpsAll 0 p.blocks
  rw [p.jumpsOf_listing, List.filter_map]
  calc (p.jumps.filter _).map Jump.written
      = (p.jumps.filter (·.Backward)).map Jump.written :=
        congrArg (List.map Jump.written) (List.filter_congr hsame)
    _ = p.loops.map fun l => (l.back, .always, UInt8.ofNat l.start) := by
      rw [hloops, List.map_map]
      rfl

/-! ### Control inside a part of the code -/

/-- Wherever control goes on from an instruction of blocks in their place, it is at a boundary of
    their code. -/
theorem Block.next_boundary {blocks : List Block} (hplain : Block.AllPlain blocks) {address : Nat}
    (hfits : ∀ j ∈ Block.jumpsAll address blocks, ¬ j.Overflows) {offset : Nat} {i : Instruction}
    (hmem : (offset, i) ∈ placed address (Block.codeAll address blocks)) (flag : Ordering) :
    Boundary address (Block.codeAll address blocks) (i.next flag offset) := by
  rcases i.next_cases flag offset with hnext | ⟨condition, target, rfl, hnext⟩
  · obtain ⟨before, behind, hcode, rfl⟩ := append_of_mem_placed hmem
    rw [hnext, hcode]
    exact ⟨before ++ [i], behind, by simp, by simp [Nat.add_assoc]⟩
  · obtain ⟨j, hj, -, rfl⟩ := Block.exists_jump hplain hmem
    rw [hnext, Jump.toNat_target (hfits j hj)]
    exact Block.targetAll_boundary address blocks j hj

/-- A part of code that control does not leave once it is inside. -/
structure Encloses (code : List Instruction) (start : Nat) (part : List Instruction) : Prop where
  stands : Stands code start part
  entered : ∃ i, (start, i) ∈ placed start part
  next_mem : ∀ offset i flag, (offset, i) ∈ placed start part →
    ∃ k, (i.next flag offset, k) ∈ placed start part

def loopCode (start : Nat) (body : List Block) : List Instruction :=
  Block.codeAll start body ++ [.jump .always (UInt8.ofNat start)]

theorem size_loopCode (start : Nat) (body : List Block) :
    size (loopCode start body) = Block.sizeAll body + Jump.size := by
  rw [loopCode, size_append, Block.size_codeAll]
  rfl

theorem placed_loopCode (start : Nat) (body : List Block) :
    placed start (loopCode start body) =
      placed start (Block.codeAll start body)
        ++ [(start + Block.sizeAll body, .jump .always (UInt8.ofNat start))] := by
  rw [loopCode, placed_append, Block.size_codeAll]
  rfl

/-- A boundary of the body of a loop is the offset of an instruction of the loop: where the body
    ends stands the jump back. -/
theorem mem_loopCode_of_boundary {start address : Nat} {body : List Block}
    (h : Boundary start (Block.codeAll start body) address) :
    ∃ i, (address, i) ∈ placed start (loopCode start body) := by
  rw [placed_loopCode]
  rcases h.mem_or_stop with ⟨i, hmem⟩ | hstop
  · exact ⟨i, List.mem_append_left _ hmem⟩
  · rw [Block.size_codeAll] at hstop
    exact ⟨_, List.mem_append_right _ (List.mem_singleton.mpr (congrArg (·, _) hstop))⟩

theorem Block.Settled.encloses {code : List Instruction} {address : Nat} {first : Bool}
    {body : List Block} (h : (Block.loop first body).Settled code address)
    (hplain : Block.AllPlain body) :
    Encloses code (loopAddress address first) (loopCode (loopAddress address first) body) := by
  refine ⟨?_, mem_loopCode_of_boundary (Boundary.start _ _), ?_⟩
  · have hcode := h.1
    rw [Block.code, List.append_assoc] at hcode
    have hright := hcode.right
    rwa [← loopAddress_eq_add_size] at hright
  · intro offset i flag hmem
    apply mem_loopCode_of_boundary
    rw [placed_loopCode] at hmem
    rcases List.mem_append.mp hmem with hbody | hback
    · exact Block.next_boundary hplain h.loopBody.2 hbody flag
    · cases List.mem_singleton.mp hback
      have hnext : (Instruction.jump .always (UInt8.ofNat (loopAddress address first))).next flag
          (loopAddress address first + Block.sizeAll body) = loopAddress address first :=
        h.start_fits
      rw [hnext]
      exact Boundary.start _ _

/-- A loop in code is closed off up to its jump back. -/
def LoopSpan.Closed (code : List Instruction) (l : LoopSpan) : Prop :=
  ∃ part, Encloses code l.start part ∧ l.stop = l.start + size part

mutual

theorem Block.closed_loops {code : List Instruction} {address : Nat} {b : Block}
    (h : b.Settled code address) (hplain : b.Plain) : ∀ l ∈ b.loops address, l.Closed code := by
  intro l hl
  cases b with
  | straight code => cases hl
  | branch left comparison right body =>
    exact Block.closed_loopsAll h.branchBody hplain l hl
  | loop first body =>
    rcases List.mem_append.mp hl with hinner | houter
    · exact Block.closed_loopsAll h.loopBody hplain l hinner
    · rw [List.mem_singleton.mp houter]
      refine ⟨_, h.encloses hplain, ?_⟩
      rw [LoopSpan.stop, size_loopCode, Nat.add_assoc]
  | note kind reason => cases hl

theorem Block.closed_loopsAll {code : List Instruction} {address : Nat} {blocks : List Block}
    (h : Block.SettledAll code address blocks) (hplain : Block.AllPlain blocks) :
    ∀ l ∈ Block.loopsAll address blocks, l.Closed code := by
  intro l hl
  cases blocks with
  | nil => cases hl
  | cons b rest =>
    rcases List.mem_append.mp hl with hfirst | hrest
    · exact Block.closed_loops h.head hplain.1 l hfirst
    · exact Block.closed_loopsAll h.tail hplain.2 l hrest

end

/-! ### A machine inside -/

namespace Machine

/-- The machine is at an instruction of a part of the code that flash holds, and has met no
    fault. -/
structure Inside (code : List Instruction) (start : Nat) (part : List Instruction) (m : Machine) :
    Prop where
  holds : m.flash.Holds code
  fault_eq : m.fault = none
  pc_mem : ∃ offset i, (offset, i) ∈ placed start part ∧ m.pc = addressOf offset

namespace Inside

variable {code part : List Instruction} {start : Nat} {m : Machine}

theorem switch (h : Inside code start part m) (running : Bool) :
    Inside code start part { m with running } :=
  ⟨h.holds, h.fault_eq, h.pc_mem⟩

theorem offset_mem (h : Inside code start part m) (hstands : Stands code start part) :
    ∃ offset, m.offset? = some offset ∧ start ≤ offset ∧ offset < start + size part := by
  obtain ⟨offset, i, hmem, hpc⟩ := h.pc_mem
  obtain ⟨hle, hlt⟩ := mem_placed_lt hmem
  have hpos := recordLength_pos i.opcode
  have hcode := hstands.le
  have hfits := h.holds.fits
  refine ⟨offset, ?_, hle, by omega⟩
  rw [Machine.offset?, hpc, offset?_addressOf (by omega)]

/-- No step leads out of a part that control does not leave, and none switches the machine off. -/
theorem step (hencloses : Encloses code start part) (hcompiled : ∀ i ∈ code, i.Compiled)
    (h : Inside code start part m) :
    Inside code start part m.step.machine ∧ m.step.machine.running = m.running := by
  obtain ⟨offset, i, hmem, hpc⟩ := h.pc_mem
  obtain ⟨before, behind, hcode, rfl⟩ := hencloses.stands
  obtain ⟨front, rest, rfl, hoffset⟩ := append_of_mem_placed hmem
  have hplace : code = (before ++ front) ++ i :: (rest ++ behind) := by simp [hcode]
  rw [← size_append] at hoffset
  have hholds := h.holds
  rw [hplace] at hholds
  have hi : i.Compiled := hcompiled i (by rw [hplace]; simp)
  cases hrunning : m.running with
  | false =>
    rw [step_of_off hrunning]
    exact ⟨h, hrunning⟩
  | true =>
    rcases step_at_instruction hholds hi.addressable hrunning (hoffset ▸ hpc) with
      ⟨-, hs⟩ | ⟨-, hs⟩
    · rw [hs]
      exact ⟨⟨h.holds, h.fault_eq, h.pc_mem⟩, hrunning⟩
    · obtain ⟨-, hflash, -, hon, hfault, -, -⟩ := m.execute_frame i
      obtain ⟨k, hnext⟩ := hencloses.next_mem offset i m.flag hmem
      rw [hoffset] at hnext
      rw [hs]
      refine ⟨⟨?_, hfault.trans h.fault_eq, _, k, hnext, rfl⟩, hon.trans hrunning⟩
      show (m.execute i).1.flash.Holds code
      rw [hflash]
      exact h.holds

theorem drive (hencloses : Encloses code start part) (hcompiled : ∀ i ∈ code, i.Compiled)
    (h : Inside code start part m) {ops : List Operation} (hops : ∀ op ∈ ops, op.Drives) (k : Nat) :
    Inside code start part ((m.performAll ops).after k) := by
  have hstep : ∀ n, Inside code start part n → Inside code start part n.step.machine :=
    fun n hn => (hn.step hencloses hcompiled).1
  exact drive_after hstep (fun _ hn => hn.switch true) (fun _ hn => hn.switch false) hops k h

end Inside

/-- A contained machine at the start of a part that control does not leave has met no fault: there
    is an instruction at its program counter, and a contained machine can only run off the end. -/
theorem Contained.inside {code part : List Instruction} {host m : Machine} {start : Nat}
    (h : Contained code host m) (htruthful : m.Truthful) (hencloses : Encloses code start part)
    (hoffset : m.offset? = some start) : Inside code start part m := by
  obtain ⟨address, hboundary, hpc⟩ := h.pc_boundary
  have hfits := h.holds.fits
  have hle := hboundary.le
  have hstart : address = start := by
    rw [Machine.offset?, hpc, offset?_addressOf (by omega)] at hoffset
    exact Option.some.inj hoffset
  obtain ⟨i, hentered⟩ := hencloses.entered
  refine ⟨h.holds, ?_, start, i, hentered, hstart ▸ hpc⟩
  rw [Option.eq_none_iff_forall_ne_some]
  intro fault hfault
  obtain ⟨rfl, -⟩ := h.fault_eq fault hfault
  have hend : Microboard.offset? m.pc = some (size code) := by
    rw [(htruthful _ hfault).pc_eq]
    exact offset?_addressOf hfits
  have hlt := (mem_placed_lt hentered).2
  have hpos := recordLength_pos i.opcode
  have hstands := hencloses.stands.le
  have hsize : start = size code := Option.some.inj (hoffset.symm.trans hend)
  omega

/-- Let firmware without an overflow that fits into flash be loaded into any machine, and let the
    host only drive the machine. Once the program counter has come to the start of a loop, it stays
    between the start and the end of the jump back, no fault is ever recorded, and no step switches
    the machine off. A state inside a batch is the one after some steps, and the rest of the batch
    is a batch of its own. The loops are those of the program, each of them once, and in the listing
    their jumps back are the jumps that do not lead forward. -/
theorem loop_never_left (p : Program) (hoverflow : overflowsOf p.compile.diagnostics = [])
    (hfits : p.compile.code.size ≤ flashCapacity) (m : Machine) :
    let listing := Listing.ofImage p.compile.code.toList
    ∃ loaded, m.load p.compile.code = .ok loaded ∧
      MirrorsAll (Program.commands p) p.blocks ∧
      (jumpsOf listing.entries).filter (fun (offset, _, target) => target.toNat ≤ offset) =
        p.loops.map (fun l => (l.back, .always, UInt8.ofNat l.start)) ∧
      ∀ l ∈ p.loops, ∀ (history : List Operation) (k : Nat), (∀ op ∈ history, op.Drives) →
        let here := (loaded.performAll history).after k
        here.offset? = some l.start →
          ∀ (ops : List Operation) (n : Nat), (∀ op ∈ ops, op.Drives) →
            let later := (here.performAll ops).after n
            (∃ offset, later.offset? = some offset ∧ l.start ≤ offset ∧ offset < l.stop) ∧
              later.fault = none ∧ later.step.machine.running = later.running := by
  intro listing
  obtain ⟨loaded, hload, hcontained⟩ := contained_of_load (toList_compile_code p) hfits m
  have hstep : ∀ n, Contained p.code m n → Contained p.code m n.step.machine :=
    fun n hn => (hn.step p.code_compiled (p.jumpsInside hoverflow)).1
  have hfault : loaded.fault = none := by
    obtain ⟨flash, -, rfl⟩ := load_eq_ok.mp hload
    rfl
  refine ⟨loaded, hload, Command.arrangeAll_mirrors {} (Program.commands p),
    p.loops_listing hoverflow, ?_⟩
  intro l hl history k hhistory here hhere ops n hops later
  obtain ⟨part, hencloses, hstop⟩ :=
    Block.closed_loopsAll (p.settled hoverflow) p.blocks_plain l hl
  have hdriven := drive_invariant hstep (fun _ hn => hn.start) (fun _ hn => hn.stop) hhistory
    hcontained
  have htruthful : here.Truthful := ((Truthful.of_none hfault).performAll history).after k
  have hinside := (after_invariant hstep k hdriven.1).inside htruthful hencloses hhere
  have hlater := hinside.drive hencloses p.code_compiled hops n
  rw [hstop]
  exact ⟨hlater.offset_mem hencloses.stands, hlater.fault_eq,
    (hlater.step hencloses p.code_compiled).2⟩

/-- A loop in a loop, behind a conditional: from the start of the outer one, the machine goes round
    without a fault. -/
theorem loop_never_left_nested :
    let p : Program := [.loop [.branch "x" .greater 9 [.clear], .loop [.delay 2]]]
    let listed := (jumpsOf (Listing.ofImage p.compile.code.toList).entries).filter
      fun (offset, _, target) => target.toNat ≤ offset
    overflowsOf p.compile.diagnostics = [] ∧ p.compile.code.size ≤ flashCapacity ∧
      listed = [(23, .always, 19), (26, .always, 3)] ∧
      ∃ loaded k, (Machine.new {}).load p.compile.code = .ok loaded ∧
        (loaded.start.after k).offset? = some 3 ∧
        ∀ n, ((loaded.start.after k).after n).fault = none := by
  intro p listed
  have hoverflow : overflowsOf p.compile.diagnostics = [] := by decide
  have hfits : p.compile.code.size ≤ flashCapacity := by decide
  obtain ⟨loaded, hload, -, hlisted, hloops⟩ := loop_never_left p hoverflow hfits (Machine.new {})
  obtain ⟨flash, hflash, hat⟩ := exists_at_start (toList_compile_code p) hfits (Machine.new {})
  cases hload.symm.trans hflash
  obtain ⟨k, hreaches⟩ := hat.reaches_loop (p.settled hoverflow).head
  have hhere : (((Machine.new {}).withFlash flash).start.after k).offset? = some 3 := by
    rw [Machine.offset?, hreaches.here.pc_eq]
    exact offset?_addressOf (by decide)
  refine ⟨hoverflow, hfits, hlisted, _, k, hload, hhere, ?_⟩
  intro n
  have houter : (⟨3, 26⟩ : LoopSpan) ∈ p.loops := by decide
  have hdrives : ∀ op ∈ [Operation.start], op.Drives := by simp [Operation.Drives]
  exact (hloops _ houter [.start] k hdrives hhere [] n (by simp)).2.1

end Machine

end Microboard
