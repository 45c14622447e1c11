import Microboard.Proofs.Firmware.Repertoire

/-!
# The jumps of firmware

`compile_jumps_exact` says where every jump of a compiled program stands and leads to: the jumps
that a listing of the firmware shows are those of the program's blocks, each with the low byte of
its target; every target is the offset of an instruction or the end of the firmware; and exactly the
targets that do not fit into a byte are reported, each of them once.
-/

namespace Microboard

open Instruction

/-! ### Boundaries -/

namespace Instruction

/-- An address at which code that starts at `start` can be divided: the address of one of its
    instructions, or its end. -/
def Boundary (start : Nat) (is : List Instruction) (address : Nat) : Prop :=
  ∃ front behind, is = front ++ behind ∧ address = start + size front

theorem Boundary.start (start : Nat) (is : List Instruction) : Boundary start is start :=
  ⟨[], is, rfl, rfl⟩

theorem Boundary.stop (start : Nat) (is : List Instruction) :
    Boundary start is (start + size is) :=
  ⟨is, [], (List.append_nil is).symm, rfl⟩

/-- A boundary of a part is a boundary of the whole. -/
theorem Boundary.within {start inner address : Nat} {is whole before behind : List Instruction}
    (h : Boundary inner is address) (hinner : inner = start + size before)
    (hwhole : whole = before ++ is ++ behind) : Boundary start whole address := by
  obtain ⟨front, rest, rfl, rfl⟩ := h
  refine ⟨before ++ front, rest ++ behind, by rw [hwhole]; simp, ?_⟩
  rw [hinner, size_append, Nat.add_assoc]

theorem Boundary.mem_or_stop {start address : Nat} {is : List Instruction}
    (h : Boundary start is address) :
    (∃ i, (address, i) ∈ placed start is) ∨ address = start + size is := by
  obtain ⟨front, behind, rfl, rfl⟩ := h
  cases behind with
  | nil => exact Or.inr (by rw [List.append_nil])
  | cons i behind =>
    left
    exact ⟨i, mem_placed_append start front behind i⟩

theorem Boundary.le {start address : Nat} {is : List Instruction} (h : Boundary start is address) :
    address ≤ start + size is := by
  obtain ⟨front, behind, rfl, rfl⟩ := h
  rw [size_append]
  omega

theorem Boundary.behind (before behind : List Instruction) (i : Instruction) :
    Boundary 0 (before ++ i :: behind) (size before + i.opcode.recordLength) :=
  ⟨before ++ [i], behind, by simp, by simp⟩

end Instruction

theorem Jump.target_of_mem_row {address target : Nat} {conditions : List Condition} {j : Jump}
    (h : j ∈ Jump.row address target conditions) : j.target = target := by
  induction conditions generalizing address with
  | nil => cases h
  | cons c conditions ih =>
    rcases List.mem_cons.mp h with rfl | hmem
    · rfl
    · exact ih hmem

theorem target_of_mem_setupJumps {address : Nat} {first : Bool} {j : Jump}
    (h : j ∈ setupJumps address first) : j.target = loopAddress address first := by
  cases first with
  | true =>
    rw [setupJumps, if_pos rfl, List.mem_singleton] at h
    rw [h]
  | false => cases h

mutual

/-- The jumps of a block lead to boundaries of its code. -/
theorem Block.target_boundary (address : Nat) (b : Block) :
    ∀ j ∈ b.jumps address, Boundary address (b.code address) j.target := by
  intro j hj
  cases b with
  | straight code => cases hj
  | branch left comparison right body =>
    have hbodyAddress := bodyAddress_eq_add_size address left comparison right body
    have hinside : ∀ {target}, Boundary (bodyAddress address left comparison right)
        (Block.codeAll (bodyAddress address left comparison right) body) target →
          Boundary address (Block.code address (.branch left comparison right body)) target :=
      fun h => h.within hbodyAddress (by rw [List.append_nil, Block.code])
    rcases List.mem_append.mp hj with hskip | hbody
    · rw [Jump.target_of_mem_row hskip, ← Block.size_codeAll]
      exact hinside (Boundary.stop _ _)
    · exact hinside (Block.targetAll_boundary _ body j hbody)
  | loop first body =>
    have hinside : ∀ {target}, Boundary (loopAddress address first)
        (Block.codeAll (loopAddress address first) body) target →
          Boundary address (Block.code address (.loop first body)) target :=
      fun h => h.within (loopAddress_eq_add_size address first) rfl
    simp only [Block.jumps, List.mem_append, List.mem_singleton] at hj
    rcases hj with (hsetup | hbody) | rfl
    · rw [target_of_mem_setupJumps hsetup]
      exact hinside (Boundary.start _ _)
    · exact hinside (Block.targetAll_boundary _ body j hbody)
    · exact hinside (Boundary.start _ _)
  | note kind reason => cases hj

theorem Block.targetAll_boundary (address : Nat) (blocks : List Block) :
    ∀ j ∈ Block.jumpsAll address blocks,
      Boundary address (Block.codeAll address blocks) j.target := by
  intro j hj
  cases blocks with
  | nil => cases hj
  | cons b rest =>
    rcases List.mem_append.mp hj with hfirst | hrest
    · have hinner : address = address + Instruction.size [] := rfl
      exact (Block.target_boundary address b j hfirst).within hinner rfl
    · have hinner : address + b.size = address + Instruction.size (b.code address) := by
        rw [Block.size_code]
      have hwhole : Block.codeAll address (b :: rest) =
          b.code address ++ Block.codeAll (address + b.size) rest ++ [] := by
        rw [List.append_nil, Block.codeAll]
      exact (Block.targetAll_boundary _ rest j hrest).within hinner hwhole

end

/-! ### The jumps in a listing -/

/-- The jumps among instructions with their offsets, each with the target byte that it names. -/
def jumpsOf (entries : List (Nat × Instruction)) : List (Nat × Condition × UInt8) :=
  entries.filterMap fun (offset, i) =>
    match i with
    | .jump condition target => some (offset, condition, target)
    | _ => none

/-- A jump as it is written: with the low byte of its target. -/
def Jump.written (j : Jump) : Nat × Condition × UInt8 :=
  (j.address, j.condition, UInt8.ofNat j.target)

@[simp] theorem jumpsOf_append (entries more : List (Nat × Instruction)) :
    jumpsOf (entries ++ more) = jumpsOf entries ++ jumpsOf more :=
  List.filterMap_append

theorem jumpsOf_placed_plain {is : List Instruction} (h : ∀ i ∈ is, i.Plain) (address : Nat) :
    jumpsOf (placed address is) = [] := by
  induction is generalizing address with
  | nil => rfl
  | cons i is ih =>
    have hi : i.target? = none := (h i (by simp)).2
    have hrest := ih (fun k hk => h k (List.mem_cons_of_mem i hk)) (address + i.opcode.recordLength)
    rw [placed, ← List.singleton_append, jumpsOf_append, hrest]
    cases i with
    | jump condition target => cases hi
    | _ => rfl

theorem jumpsOf_placed_row (address target : Nat) (conditions : List Condition) :
    jumpsOf (placed address ((Jump.row address target conditions).map Jump.instruction)) =
      (Jump.row address target conditions).map Jump.written := by
  induction conditions generalizing address with
  | nil => rfl
  | cons c conditions ih =>
    have h := ih (address + Jump.size)
    rw [Jump.row, List.map_cons, List.map_cons, placed, ← List.singleton_append, jumpsOf_append,
      ← List.singleton_append, ← h]
    rfl

theorem jumpsOf_placed_setup (address : Nat) (first : Bool) :
    jumpsOf (placed address ((setupJumps address first).map Jump.instruction)) =
      (setupJumps address first).map Jump.written := by
  cases first <;> rfl

theorem jumpsOf_placed_test (address : Nat) (left : Variable) (right : UInt8) :
    jumpsOf (placed address (testCode left right)) = [] := rfl

mutual

/-- The jumps that stand in the code of a block are the jumps of the block. -/
theorem Block.jumpsOf_code {b : Block} (h : b.Plain) (address : Nat) :
    jumpsOf (placed address (b.code address)) = (b.jumps address).map Jump.written := by
  cases b with
  | straight code => exact jumpsOf_placed_plain h address
  | branch left comparison right body =>
    have hrow : jumpsOf (placed (address + Instruction.size (testCode left right))
        ((skipJumps address left comparison right body).map Jump.instruction)) =
          (skipJumps address left comparison right body).map Jump.written :=
      jumpsOf_placed_row _ _ _
    rw [Block.code, placed_append, ← bodyAddress_eq_add_size, placed_append, jumpsOf_append,
      jumpsOf_append, jumpsOf_placed_test, hrow, Block.jumpsOf_codeAll h, Block.jumps,
      List.map_append, List.nil_append]
  | loop first body =>
    have hback : jumpsOf (placed (loopAddress address first + Block.sizeAll body)
        [(backJump address first body).instruction]) =
          [(backJump address first body).written] := rfl
    rw [Block.code, placed_append, placed_append, size_append, ← Nat.add_assoc,
      ← loopAddress_eq_add_size, Block.size_codeAll, jumpsOf_append, jumpsOf_append,
      jumpsOf_placed_setup, Block.jumpsOf_codeAll h, hback, Block.jumps, List.map_append,
      List.map_append, List.map_singleton]
  | note kind reason => rfl

theorem Block.jumpsOf_codeAll {blocks : List Block} (h : Block.AllPlain blocks) (address : Nat) :
    jumpsOf (placed address (Block.codeAll address blocks)) =
      (Block.jumpsAll address blocks).map Jump.written := by
  cases blocks with
  | nil => rfl
  | cons b rest =>
    rw [Block.codeAll, placed_append, Block.size_code, jumpsOf_append, Block.jumpsOf_code h.1,
      Block.jumpsOf_codeAll h.2, Block.jumpsAll, List.map_append]

end

/-- A jump that stands in the code of blocks is one of their jumps. -/
theorem Block.exists_jump {blocks : List Block} (hplain : Block.AllPlain blocks)
    {address offset : Nat} {condition : Condition} {target : UInt8}
    (hmem : (offset, .jump condition target) ∈ placed address (Block.codeAll address blocks)) :
    ∃ j ∈ Block.jumpsAll address blocks, j.address = offset ∧ UInt8.ofNat j.target = target := by
  have hwritten : (offset, condition, target) ∈
      (Block.jumpsAll address blocks).map Jump.written := by
    rw [← Block.jumpsOf_codeAll hplain]
    exact List.mem_filterMap.mpr ⟨_, hmem, rfl⟩
  obtain ⟨j, hj, heq⟩ := List.mem_map.mp hwritten
  cases heq
  exact ⟨j, hj, rfl, rfl⟩

/-! ### The shape of a program -/

def Command.Straight : Command → Prop
  | .branch .. | .loop _ => False
  | _ => True

mutual

/-- A block has the shape of a command: its conditionals and loops are those of the command, one
    inside the other as there. -/
inductive Mirrors : Command → Block → Prop where
  | straight {c : Command} {code : List Instruction} (h : c.Straight) : Mirrors c (.straight code)
  | branch {left : Variable} {comparison : Comparison} {right : UInt8} {body : List Command}
      {blocks : List Block} (h : MirrorsAll body blocks) :
      Mirrors (.branch left comparison right body) (.branch left comparison right blocks)
  | loop {first : Bool} {body : List Command} {blocks : List Block} (h : MirrorsAll body blocks) :
      Mirrors (.loop body) (.loop first blocks)
  | note {kind : String} {reason : Unsupported} : Mirrors (.skipped kind reason) (.note kind reason)

inductive MirrorsAll : List Command → List Block → Prop where
  | nil : MirrorsAll [] []
  | cons {c : Command} {b : Block} {cs : List Command} {bs : List Block} (hfirst : Mirrors c b)
      (hrest : MirrorsAll cs bs) : MirrorsAll (c :: cs) (b :: bs)

end

mutual

theorem Command.arrange_mirrors (s : Stage) (c : Command) : Mirrors c (c.arrange s).1 := by
  cases c with
  | branch left comparison right body => exact .branch (Command.arrangeAll_mirrors s body)
  | loop body => exact .loop (Command.arrangeAll_mirrors _ body)
  | skipped kind reason => exact .note
  | _ => exact .straight trivial

theorem Command.arrangeAll_mirrors (s : Stage) (cs : List Command) :
    MirrorsAll cs (Command.arrangeAll s cs).1 := by
  cases cs with
  | nil => exact .nil
  | cons c rest => exact .cons (Command.arrange_mirrors s c) (Command.arrangeAll_mirrors _ rest)

end

/-! ### The setup jump -/

mutual

/-- Of every loop in a block, in the order of their starts, whether the setup ends in front. -/
def Block.setups : Block → List Bool
  | .straight _ | .note .. => []
  | .branch _ _ _ body => Block.setupsAll body
  | .loop first body => first :: Block.setupsAll body

def Block.setupsAll : List Block → List Bool
  | [] => []
  | b :: rest => b.setups ++ Block.setupsAll rest

end

/-- Of so many loops, only the first ends the setup, unless it has ended before. -/
def onlyFirst (ended : Bool) : Nat → List Bool
  | 0 => []
  | loops + 1 => (!ended) :: List.replicate loops false

theorem onlyFirst_true (loops : Nat) : onlyFirst true loops = List.replicate loops false := by
  cases loops <;> rfl

theorem onlyFirst_append (ended : Bool) (loops more : Nat) :
    onlyFirst ended loops ++ onlyFirst (ended || loops != 0) more =
      onlyFirst ended (loops + more) := by
  cases loops with
  | zero => simp [onlyFirst]
  | succ loops =>
    have hended : (ended || loops + 1 != 0) = true := by simp
    rw [hended, onlyFirst_true, Nat.add_right_comm]
    simp [onlyFirst]

mutual

theorem Command.arrange_setups (s : Stage) (c : Command) :
    ∃ loops, (c.arrange s).1.setups = onlyFirst s.setupEnded loops ∧
      (c.arrange s).2.setupEnded = (s.setupEnded || loops != 0) := by
  cases c with
  | branch left comparison right body =>
    simp only [Command.arrange, Block.setups]
    exact Command.arrangeAll_setups s body
  | loop body =>
    obtain ⟨loops, hsetups, hended⟩ := Command.arrangeAll_setups { setupEnded := true } body
    refine ⟨loops + 1, ?_, ?_⟩
    · simp only [Command.arrange, Block.setups]
      rw [hsetups, onlyFirst_true]
      rfl
    · simp only [Command.arrange]
      rw [hended]
      simp
  | _ => exact ⟨0, rfl, (Bool.or_false _).symm⟩

theorem Command.arrangeAll_setups (s : Stage) (cs : List Command) :
    ∃ loops, Block.setupsAll (Command.arrangeAll s cs).1 = onlyFirst s.setupEnded loops ∧
      (Command.arrangeAll s cs).2.setupEnded = (s.setupEnded || loops != 0) := by
  cases cs with
  | nil => exact ⟨0, rfl, (Bool.or_false _).symm⟩
  | cons c rest =>
    obtain ⟨loops, hsetups, hended⟩ := Command.arrange_setups s c
    obtain ⟨more, hsetupsRest, hendedRest⟩ := Command.arrangeAll_setups (c.arrange s).2 rest
    refine ⟨loops + more, ?_, ?_⟩
    · simp only [Command.arrangeAll, Block.setupsAll]
      rw [hsetups, hsetupsRest, hended, onlyFirst_append]
    · simp only [Command.arrangeAll]
      rw [hendedRest, hended, Bool.or_assoc]
      congr 1
      cases loops <;> simp

end

/-! ### Overflows -/

/-- The address and the target of a jump that a diagnostic is about. -/
def Diagnostic.overflow? : Diagnostic → Option (Nat × Nat)
  | .addressOverflow address target => some (address, target)
  | .unsupported .. => none

def overflowsOf (ds : List Diagnostic) : List (Nat × Nat) :=
  ds.filterMap Diagnostic.overflow?

def Jump.overflows (jumps : List Jump) : List (Nat × Nat) :=
  (jumps.filter (·.Overflows)).map fun j => (j.address, j.target)

@[simp] theorem overflowsOf_append (ds es : List Diagnostic) :
    overflowsOf (ds ++ es) = overflowsOf ds ++ overflowsOf es :=
  List.filterMap_append

@[simp] theorem Jump.overflows_append (jumps more : List Jump) :
    Jump.overflows (jumps ++ more) = Jump.overflows jumps ++ Jump.overflows more := by
  simp [Jump.overflows]

theorem Jump.toNat_target {j : Jump} (h : ¬ j.Overflows) :
    (UInt8.ofNat j.target).toNat = j.target := by
  rw [UInt8.toNat_ofNat']
  exact Nat.mod_eq_of_lt (Nat.lt_succ_of_le (Nat.le_of_not_lt h))

theorem overflowsOf_jump (j : Jump) : overflowsOf j.diagnostics = Jump.overflows [j] := by
  by_cases h : j.Overflows <;> simp [overflowsOf, Jump.diagnostics, Jump.overflows, h,
    Diagnostic.overflow?]

theorem overflowsOf_jumps (jumps : List Jump) :
    overflowsOf (jumps.flatMap Jump.diagnostics) = Jump.overflows jumps := by
  induction jumps with
  | nil => rfl
  | cons j jumps ih =>
    rw [List.flatMap_cons, overflowsOf_append, ih, overflowsOf_jump, ← Jump.overflows_append,
      List.singleton_append]

mutual

/-- The overflows that are reported about a block are those of its jumps. Only the order differs,
    since a skip is settled behind the body that it skips. -/
theorem Block.overflows_perm (address : Nat) (b : Block) :
    (overflowsOf (b.diagnostics address)).Perm (Jump.overflows (b.jumps address)) := by
  cases b with
  | straight code => exact List.Perm.refl _
  | branch left comparison right body =>
    rw [Block.diagnostics, Block.jumps, overflowsOf_append, overflowsOf_jumps,
      Jump.overflows_append]
    exact ((Block.overflowsAll_perm _ body).append_right _).trans List.perm_append_comm
  | loop first body =>
    rw [Block.diagnostics, Block.jumps, overflowsOf_append, overflowsOf_append, overflowsOf_jumps,
      overflowsOf_jump, Jump.overflows_append, Jump.overflows_append]
    exact ((Block.overflowsAll_perm _ body).append_left _).append_right _
  | note kind reason => exact List.Perm.refl _

theorem Block.overflowsAll_perm (address : Nat) (blocks : List Block) :
    (overflowsOf (Block.diagnosticsAll address blocks)).Perm
      (Jump.overflows (Block.jumpsAll address blocks)) := by
  cases blocks with
  | nil => exact List.Perm.refl _
  | cons b rest =>
    rw [Block.diagnosticsAll, Block.jumpsAll, overflowsOf_append, Jump.overflows_append]
    exact (Block.overflows_perm address b).append (Block.overflowsAll_perm _ rest)

end

/-! ### The jumps of a program -/

namespace Program

def jumps (p : Program) : List Jump :=
  Block.jumpsAll 0 p.blocks

theorem jumpsOf_listing (p : Program) :
    jumpsOf (Listing.ofImage p.compile.code.toList).entries = p.jumps.map Jump.written := by
  rw [ofImage_compile]
  exact Block.jumpsOf_codeAll p.blocks_plain 0

theorem overflows_compile (p : Program) :
    (overflowsOf p.compile.diagnostics).Perm (Jump.overflows p.jumps) := by
  rw [diagnostics_compile]
  exact Block.overflowsAll_perm 0 p.blocks

/-- Every jump leads to an instruction or to the end of the code. -/
theorem target_boundary (p : Program) {j : Jump} (h : j ∈ p.jumps) : Boundary 0 p.code j.target :=
  Block.targetAll_boundary 0 p.blocks j h

theorem target_mem_listing (p : Program) {j : Jump} (h : j ∈ p.jumps) :
    (∃ i, (j.target, i) ∈ (Listing.ofImage p.compile.code.toList).entries) ∨
      j.target = p.compile.code.size := by
  have hboundary := (p.target_boundary h).mem_or_stop
  rw [Nat.zero_add, p.size_code] at hboundary
  rw [ofImage_compile]
  exact hboundary

theorem target_le_size (p : Program) {j : Jump} (h : j ∈ p.jumps) :
    j.target ≤ p.compile.code.size := by
  have hle := (p.target_boundary h).le
  rwa [Nat.zero_add, p.size_code] at hle

/-- A program whose compilation reports no overflow has no jump that overflows. -/
theorem not_overflows (p : Program) (h : overflowsOf p.compile.diagnostics = []) {j : Jump}
    (hj : j ∈ p.jumps) : ¬ j.Overflows := by
  intro hover
  have hmem : (j.address, j.target) ∈ Jump.overflows p.jumps :=
    List.mem_map.mpr ⟨j, List.mem_filter.mpr ⟨hj, decide_eq_true hover⟩, rfl⟩
  have hreported := p.overflows_compile.mem_iff.mpr hmem
  rw [h] at hreported
  cases hreported

theorem pairwise_listing (p : Program) :
    (Listing.ofImage p.compile.code.toList).entries.Pairwise fun a b => a.1 < b.1 := by
  rw [ofImage_compile]
  exact pairwise_placed 0 p.code

theorem pairwise_jumps (p : Program) : p.jumps.Pairwise fun j k => j.address < k.address := by
  have hwritten : (p.jumps.map Jump.written).Pairwise fun a b => a.1 < b.1 := by
    rw [← jumpsOf_listing]
    refine List.Pairwise.filterMap _ ?_ p.pairwise_listing
    rintro ⟨a, i⟩ ⟨b, k⟩ hlt u hu v hv
    cases i <;> cases hu
    cases k <;> cases hv
    exact hlt
  rw [List.pairwise_map] at hwritten
  exact hwritten

end Program

/-- The firmware of any program lists without an error. The jumps in the listing are the jumps of
    the program's blocks, each with the low byte of its target; the blocks have the shape of the
    program, and only the first loop has a jump in front that ends the setup. Every target is the
    offset of an instruction or the end of the firmware. Each target that does not fit into a byte
    is reported once, and nothing else is reported as an overflow. So without such a report every
    target byte is the offset of an instruction or the length of the firmware, and firmware of at
    most 255 bytes has no such report. -/
theorem Program.compile_jumps_exact (p : Program) :
    let listing := Listing.ofImage p.compile.code.toList
    let overflows := overflowsOf p.compile.diagnostics
    listing.stop = none ∧
      jumpsOf listing.entries = p.jumps.map Jump.written ∧
      MirrorsAll (Program.commands p) p.blocks ∧
      (∃ loops, Block.setupsAll p.blocks = onlyFirst false loops) ∧
      (∀ j ∈ p.jumps,
        (∃ i, (j.target, i) ∈ listing.entries) ∨ j.target = p.compile.code.size) ∧
      p.jumps.Pairwise (fun j k => j.address < k.address) ∧
      overflows.Perm (Jump.overflows p.jumps) ∧
      (overflows = [] → ∀ entry ∈ jumpsOf listing.entries,
        (∃ i, (entry.2.2.toNat, i) ∈ listing.entries) ∨
          entry.2.2.toNat = p.compile.code.size) ∧
      (p.compile.code.size ≤ Emitter.maxTarget → overflows = []) := by
  intro listing overflows
  obtain ⟨loops, hsetups, -⟩ := Command.arrangeAll_setups {} (Program.commands p)
  refine ⟨?_, p.jumpsOf_listing, Command.arrangeAll_mirrors {} (Program.commands p),
    ⟨loops, hsetups⟩, fun j hj => p.target_mem_listing hj,
    p.pairwise_jumps, p.overflows_compile, ?_, ?_⟩
  · simp only [listing, ofImage_compile]
  · intro hnone entry hentry
    rw [p.jumpsOf_listing] at hentry
    obtain ⟨j, hj, rfl⟩ := List.mem_map.mp hentry
    simp only [Jump.written, Jump.toNat_target (p.not_overflows hnone hj)]
    exact p.target_mem_listing hj
  · intro hsize
    have hfilter : p.jumps.filter (·.Overflows) = [] := by
      rw [List.filter_eq_nil_iff]
      intro j hj hover
      have hle := p.target_le_size hj
      exact Nat.not_lt.mpr (Nat.le_trans hle hsize) (of_decide_eq_true hover)
    have hperm := p.overflows_compile
    rw [Jump.overflows, hfilter] at hperm
    exact hperm.eq_nil

end Microboard
