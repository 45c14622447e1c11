import Microboard.Proofs.Firmware.Layout

/-!
# Emission follows the layout

`lowerAll_eq` says what lowering does to any emitter: it appends the code and the diagnostics of the
blocks that the commands become, and leaves the open skips as they were. The placeholder of a skip
is patched exactly once, when its conditional ends, and no loop ever finds a skip of its body still
open.
-/

namespace Microboard

namespace Emitter

theorem ext_toList {a b : Emitter} (hcode : a.code.toList = b.code.toList)
    (hskips : a.skips = b.skips) (hsetup : a.setupEnded = b.setupEnded) (hcache : a.cache = b.cache)
    (hdiagnostics : a.diagnostics.toList = b.diagnostics.toList) : a = b := by
  cases a
  cases b
  simp_all [Array.toList_inj]

def stage (e : Emitter) : Stage :=
  ⟨e.setupEnded, e.cache⟩

/-- An emitter that has also emitted code. -/
def withCode (e : Emitter) (is : List Instruction) : Emitter :=
  { e with code := e.code ++ Instruction.bytes is }

/-- An emitter that has also emitted blocks, and so reached another stage. -/
def extend (e : Emitter) (blocks : List Block) (s : Stage) : Emitter :=
  { e.withCode (Block.codeAll e.address blocks) with
    setupEnded := s.setupEnded
    cache := s.cache
    diagnostics := e.diagnostics ++ Block.diagnosticsAll e.address blocks }

@[simp] theorem stage_extend (e : Emitter) (blocks : List Block) (s : Stage) :
    (e.extend blocks s).stage = s := rfl

theorem cache_withCode (e : Emitter) (is : List Instruction) :
    (e.withCode is).cache = e.cache := rfl

@[simp] theorem withCode_nil (e : Emitter) : e.withCode [] = e := by
  simp [withCode]

@[simp] theorem withCode_withCode (e : Emitter) (is js : List Instruction) :
    (e.withCode is).withCode js = e.withCode (is ++ js) := by
  apply ext_toList <;> simp [withCode]

@[simp] theorem address_withCode (e : Emitter) (is : List Instruction) :
    (e.withCode is).address = e.address + Instruction.size is := by
  simp only [address, ← Array.length_toList, withCode, Array.toList_appendList, List.length_append,
    Instruction.length_bytes]

theorem emit_eq (e : Emitter) (i : Instruction) : e.emit i = e.withCode [i] := by
  simp [emit, withCode]

theorem emitAll_eq (e : Emitter) (is : List Instruction) : e.emitAll is = e.withCode is := by
  induction is generalizing e with
  | nil => simp [emitAll]
  | cons i is ih =>
    calc e.emitAll (i :: is) = (e.emit i).emitAll is := rfl
      _ = e.withCode (i :: is) := by rw [ih, emit_eq, withCode_withCode, List.singleton_append]

end Emitter

/-! ### Sizes -/

namespace Jump

theorem size_instruction (j : Jump) : Instruction.size [j.instruction] = size := rfl

theorem length_row (address target : Nat) (conditions : List Condition) :
    (row address target conditions).length = conditions.length := by
  induction conditions generalizing address with
  | nil => rfl
  | cons c conditions ih => rw [row, List.length_cons, List.length_cons, ih]

theorem size_map_instruction (jumps : List Jump) :
    Instruction.size (jumps.map instruction) = size * jumps.length := by
  induction jumps with
  | nil => rfl
  | cons j jumps ih =>
    rw [List.map_cons, ← List.singleton_append, Instruction.size_append, ih, size_instruction,
      List.length_cons, Nat.mul_succ, Nat.add_comm]

end Jump

theorem size_setupJumps (address : Nat) (first : Bool) :
    Instruction.size ((setupJumps address first).map Jump.instruction) = loopAddress 0 first := by
  cases first <;> rfl

theorem bodyAddress_eq (address : Nat) (left : Variable) (comparison : Comparison)
    (right : UInt8) :
    bodyAddress address left comparison right =
      address + bodyAddress 0 left comparison right := by
  simp only [bodyAddress, skipsAddress]
  omega

theorem loopAddress_eq (address : Nat) (first : Bool) :
    loopAddress address first = address + loopAddress 0 first := by
  cases first <;> simp [loopAddress]

theorem bodyAddress_eq_add_size (address : Nat) (left : Variable) (comparison : Comparison)
    (right : UInt8) (body : List Block) :
    bodyAddress address left comparison right =
      address + Instruction.size (testCode left right
        ++ (skipJumps address left comparison right body).map Jump.instruction) := by
  rw [Instruction.size_append, Jump.size_map_instruction, skipJumps, Jump.length_row, bodyAddress,
    skipsAddress, Nat.add_assoc]

theorem loopAddress_eq_add_size (address : Nat) (first : Bool) :
    loopAddress address first =
      address + Instruction.size ((setupJumps address first).map Jump.instruction) := by
  rw [size_setupJumps, ← loopAddress_eq]

mutual

theorem Block.size_code (address : Nat) (b : Block) :
    Instruction.size (b.code address) = b.size := by
  cases b with
  | straight code => rfl
  | branch left comparison right body =>
    simp only [Block.code, Block.size, Instruction.size_append, Jump.size_map_instruction,
      skipJumps, Jump.length_row, Block.size_codeAll _ body, bodyAddress, skipsAddress]
    omega
  | loop first body =>
    simp only [Block.code, Block.size, Instruction.size_append, size_setupJumps,
      Jump.size_instruction, Block.size_codeAll _ body]
  | note kind reason => rfl

theorem Block.size_codeAll (address : Nat) (blocks : List Block) :
    Instruction.size (Block.codeAll address blocks) = Block.sizeAll blocks := by
  cases blocks with
  | nil => rfl
  | cons b rest =>
    simp only [Block.codeAll, Block.sizeAll, Instruction.size_append, Block.size_code address b,
      Block.size_codeAll _ rest]

end

namespace Emitter

@[simp] theorem address_extend (e : Emitter) (blocks : List Block) (s : Stage) :
    (e.extend blocks s).address = e.address + Block.sizeAll blocks := by
  show (e.withCode (Block.codeAll e.address blocks)).address = _
  rw [address_withCode, Block.size_codeAll]

theorem toList_extend (e : Emitter) (blocks : List Block) (s : Stage) :
    (e.extend blocks s).code.toList =
      e.code.toList ++ Instruction.bytes (Block.codeAll e.address blocks) := by
  simp only [extend, withCode, Array.toList_appendList]

/-! ### Patching -/

theorem checkTarget_eq (e : Emitter) (j : Jump) :
    e.checkTarget j.address j.target =
      { e with diagnostics := e.diagnostics ++ j.diagnostics } := by
  unfold checkTarget Jump.diagnostics Jump.Overflows
  by_cases h : maxTarget < j.target
  · simp [h, report]
  · simp [h]

/-- The bytes of jumps whose targets are still to be written. -/
def openBytes (conditions : List Condition) : List UInt8 :=
  Instruction.bytes (conditions.map fun condition => .jump condition 0)

/-- Where the target bytes of jumps in a row stand. -/
def places (address : Nat) (conditions : List Condition) : List Nat :=
  (List.range conditions.length).map fun k => address + Jump.size * k + Opcode.headerLength

theorem places_cons (address : Nat) (c : Condition) (conditions : List Condition) :
    places address (c :: conditions) =
      (address + Opcode.headerLength) :: places (address + Jump.size) conditions := by
  simp only [places, List.length_cons, List.range_succ_eq_map, List.map_cons, List.map_map,
    Nat.mul_zero, Nat.add_zero, List.cons.injEq, true_and]
  apply List.map_congr_left
  intro k _
  simp only [Function.comp_apply, Nat.mul_succ]
  omega

theorem patch_jump (e : Emitter) (condition : Condition) (target : Nat) (before behind : List UInt8)
    (h : e.code.toList = before ++ openBytes [condition] ++ behind) :
    patch target e (before.length + Opcode.headerLength) =
      { e with
        code := (before ++ (Jump.instruction ⟨before.length, condition, target⟩).encode
          ++ behind).toArray
        diagnostics := e.diagnostics ++ (Jump.mk before.length condition target).diagnostics } := by
  have hset : (before ++ openBytes [condition] ++ behind).set
        (before.length + Opcode.headerLength) (UInt8.ofNat target) =
      before ++ (Jump.instruction ⟨before.length, condition, target⟩).encode ++ behind := by
    simp [openBytes, Instruction.encode, Instruction.operands, Jump.instruction,
      Opcode.headerLength, Instruction.opcode]
  unfold patch
  rw [Nat.add_sub_cancel, checkTarget_eq e ⟨before.length, condition, target⟩]
  apply ext_toList
  · rw [Array.toList_setIfInBounds, h, hset]
  all_goals rfl

theorem foldl_patch (target : Nat) (conditions : List Condition) :
    ∀ (e : Emitter) (before behind : List UInt8),
      e.code.toList = before ++ openBytes conditions ++ behind →
      (places before.length conditions).foldl (patch target) e =
        { e with
          code := (before
            ++ Instruction.bytes ((Jump.row before.length target conditions).map Jump.instruction)
            ++ behind).toArray
          diagnostics := e.diagnostics
            ++ (Jump.row before.length target conditions).flatMap Jump.diagnostics } := by
  induction conditions with
  | nil =>
    intro e before behind h
    apply ext_toList <;> simp_all [places, Jump.row, openBytes]
  | cons c conditions ih =>
    intro e before behind h
    have hfirst : e.code.toList = before ++ openBytes [c] ++ (openBytes conditions ++ behind) := by
      rw [h]
      simp [openBytes]
    have hlength : (before ++ (Jump.instruction ⟨before.length, c, target⟩).encode).length =
        before.length + Jump.size := by
      rw [List.length_append, Instruction.length_encode]
      rfl
    rw [places_cons, List.foldl_cons, patch_jump e c target before _ hfirst, ← hlength,
      ih _ _ behind]
    · apply ext_toList <;> simp [Jump.row, hlength]
    · simp

/-! ### Commands without a body -/

theorem coordinate_eq (e : Emitter) (axis : Axis) (c : Coordinate) :
    e.coordinate axis c =
      ({ e.withCode (c.code e.cache axis) with cache := c.cacheAfter e.cache axis },
        c.register axis) := by
  rcases c with (v | value) | value
  · simp [coordinate, Coordinate.code, Coordinate.cacheAfter, Coordinate.register]
  · simp only [coordinate, emit_eq]
    rfl
  · simp only [coordinate, Coordinate.code, Coordinate.cacheAfter, Coordinate.register]
    split
    · rename_i hheld
      have hset : e.cache.set axis (some value) = e.cache := by
        cases axis <;> simp only [PixelCache.get] at hheld <;> simp [PixelCache.set, ← hheld]
      rw [hset, withCode_nil]
    · rw [emitAll_eq]
      rfl

theorem pixel_eq (e : Emitter) (x y : Coordinate) :
    e.pixel x y =
      { e.withCode (Command.code e.cache (.pixel x y)) with
        cache := Command.cacheAfter e.cache (.pixel x y) } := by
  unfold pixel
  simp only [coordinate_eq, emit_eq]
  apply ext_toList <;> simp [withCode, Command.code, Command.cacheAfter]

theorem lower_straight (e : Emitter) {c : Command}
    (h : c.arrange e.stage =
      (.straight (c.code e.cache), { e.stage with cache := c.cacheAfter e.cache }))
    (hlower : c.lower e =
      { e.withCode (c.code e.cache) with cache := c.cacheAfter e.cache }) :
    c.lower e = e.extend [(c.arrange e.stage).1] (c.arrange e.stage).2 := by
  rw [h, hlower]
  apply ext_toList <;> simp [extend, withCode, stage, Block.codeAll, Block.code,
    Block.diagnosticsAll, Block.diagnostics]

/-! ### Conditionals -/

/-- The emitter inside a conditional: the comparison and the open skips are emitted. -/
theorem beginBranch_eq (e : Emitter) (left : Variable) (comparison : Comparison) (right : UInt8) :
    e.beginBranch left comparison right =
      { e.withCode (testCode left right
          ++ comparison.skips.map fun condition => .jump condition 0) with
        skips := places (skipsAddress e.address left right) comparison.skips :: e.skips } := by
  unfold beginBranch openSkips
  simp only [emitAll_eq, withCode_withCode, address_withCode]
  rfl

theorem address_beginBranch (e : Emitter) (left : Variable) (comparison : Comparison)
    (right : UInt8) :
    (e.beginBranch left comparison right).address =
      bodyAddress e.address left comparison right := by
  rw [beginBranch_eq]
  show (e.withCode _).address = _
  rw [address_withCode, Instruction.size_append, bodyAddress, skipsAddress, Nat.add_assoc]
  have hskips : (comparison.skips.map fun condition => Instruction.jump condition 0) =
      (Jump.row 0 0 comparison.skips).map Jump.instruction := by
    cases comparison <;> rfl
  rw [hskips, Jump.size_map_instruction, Jump.length_row]

theorem stage_beginBranch (e : Emitter) (left : Variable) (comparison : Comparison)
    (right : UInt8) : (e.beginBranch left comparison right).stage = e.stage := by
  rw [beginBranch_eq]
  rfl

/-- Ending a conditional patches the skips in front of its body. -/
theorem closeSkips_eq (e : Emitter) (left : Variable) (comparison : Comparison) (right : UInt8)
    (body : List Block) (s : Stage) :
    ((e.beginBranch left comparison right).extend body s).closeSkips =
      e.extend [.branch left comparison right body] s := by
  have hcode : ((e.beginBranch left comparison right).extend body s).code.toList =
      (e.code.toList ++ Instruction.bytes (testCode left right)) ++ openBytes comparison.skips
        ++ Instruction.bytes
          (Block.codeAll (bodyAddress e.address left comparison right) body) := by
    simp only [extend, address_beginBranch]
    rw [beginBranch_eq]
    simp [withCode, openBytes]
  have hlength : (e.code.toList ++ Instruction.bytes (testCode left right)).length =
      skipsAddress e.address left right := by
    rw [List.length_append, Instruction.length_bytes, Array.length_toList]
    rfl
  have htarget : ((e.beginBranch left comparison right).extend body s).address =
      bodyAddress e.address left comparison right + Block.sizeAll body := by
    rw [address_extend, address_beginBranch]
  have hskips : ((e.beginBranch left comparison right).extend body s).skips =
      places (skipsAddress e.address left right) comparison.skips :: e.skips := by
    rw [beginBranch_eq]
    rfl
  unfold closeSkips
  rw [hskips, htarget]
  simp only
  rw [← hlength, foldl_patch _ _ { (e.beginBranch left comparison right).extend body s with
    skips := e.skips } _ _ hcode, hlength]
  apply ext_toList
  · simp [extend, withCode, Block.codeAll, Block.code, skipJumps]
  · rfl
  · rfl
  · rfl
  · simp only [extend, address_beginBranch]
    rw [beginBranch_eq]
    simp [withCode, Block.diagnosticsAll, Block.diagnostics, skipJumps]

/-! ### Loops -/

theorem emitJump_eq (e : Emitter) (condition : Condition) (target : Nat) :
    e.emitJump condition target =
      { e.withCode [(Jump.mk e.address condition target).instruction] with
        diagnostics := e.diagnostics ++ (Jump.mk e.address condition target).diagnostics } := by
  unfold emitJump
  rw [checkTarget_eq e ⟨e.address, condition, target⟩, emit_eq]
  rfl

theorem endSetup_eq (e : Emitter) :
    e.endSetup =
      { e.withCode ((setupJumps e.address !e.setupEnded).map Jump.instruction) with
        setupEnded := true
        diagnostics := e.diagnostics
          ++ (setupJumps e.address !e.setupEnded).flatMap Jump.diagnostics } := by
  unfold endSetup
  cases hended : e.setupEnded
  · simp only [Bool.false_eq_true, if_false, emitJump_eq]
    simp [setupJumps, loopAddress, Jump.size]
  · apply ext_toList <;> simp [setupJumps, hended]

theorem address_endSetup (e : Emitter) :
    e.endSetup.address = loopAddress e.address !e.setupEnded := by
  rw [endSetup_eq]
  show (e.withCode _).address = _
  rw [address_withCode, size_setupJumps, loopAddress_eq e.address]

theorem stage_beginLoop (e : Emitter) :
    (e.endSetup.updateCache fun _ => {}).stage = { setupEnded := true } := by
  rw [endSetup_eq]
  rfl

/-- No skip that was opened inside a loop is still open at its end. -/
theorem closeSkipsTo_length (e : Emitter) : e.closeSkipsTo e.skips.length = e := by
  simp [closeSkipsTo]

theorem endLoop_eq (e : Emitter) (body : List Block) (s : Stage) :
    ((e.endSetup.updateCache fun _ => {}).extend body s).endLoop e.endSetup.address =
      e.extend [.loop (!e.setupEnded) body] s := by
  have haddress : ((e.endSetup.updateCache fun _ => {}).extend body s).address =
      loopAddress e.address (!e.setupEnded) + Block.sizeAll body := by
    rw [address_extend, ← address_endSetup]
    rfl
  have hupdate : (e.endSetup.updateCache fun _ => {}).address =
      loopAddress e.address (!e.setupEnded) := by
    rw [← address_endSetup]
    rfl
  unfold endLoop
  rw [emitJump_eq, haddress, address_endSetup]
  simp only [extend, hupdate]
  rw [endSetup_eq]
  apply ext_toList <;>
    simp [withCode, updateCache, Block.codeAll, Block.code, Block.diagnosticsAll,
      Block.diagnostics, backJump]

/-! ### Any commands -/

theorem codeAll_append (address : Nat) (blocks more : List Block) :
    Block.codeAll address (blocks ++ more) =
      Block.codeAll address blocks ++ Block.codeAll (address + Block.sizeAll blocks) more := by
  induction blocks generalizing address with
  | nil => rfl
  | cons b blocks ih =>
    simp only [List.cons_append, Block.codeAll, Block.sizeAll, ih, List.append_assoc, Nat.add_assoc]

theorem diagnosticsAll_append (address : Nat) (blocks more : List Block) :
    Block.diagnosticsAll address (blocks ++ more) =
      Block.diagnosticsAll address blocks
        ++ Block.diagnosticsAll (address + Block.sizeAll blocks) more := by
  induction blocks generalizing address with
  | nil => rfl
  | cons b blocks ih =>
    simp only [List.cons_append, Block.diagnosticsAll, Block.sizeAll, ih, List.append_assoc,
      Nat.add_assoc]

@[simp] theorem extend_nil (e : Emitter) : e.extend [] e.stage = e := by
  apply ext_toList <;> simp [extend, withCode, Block.codeAll, Block.diagnosticsAll, stage]

theorem extend_extend (e : Emitter) (blocks more : List Block) (s t : Stage) :
    (e.extend blocks s).extend more t = e.extend (blocks ++ more) t := by
  unfold extend
  apply ext_toList
  · simp [withCode, codeAll_append, address, ← Array.length_toList, Block.size_codeAll]
  · rfl
  · rfl
  · rfl
  · simp [withCode, diagnosticsAll_append, address, ← Array.length_toList, Block.size_codeAll]

end Emitter

open Emitter

mutual

/-- Lowering a command appends its block. -/
theorem Command.lower_eq (e : Emitter) (c : Command) :
    c.lower e = e.extend [(c.arrange e.stage).1] (c.arrange e.stage).2 := by
  cases c with
  | load target value =>
    apply lower_straight e rfl
    simp only [Command.lower, loadVariable, emit_eq, updateCache, cache_withCode, Command.code,
      Command.cacheAfter]
  | negate target source =>
    apply lower_straight e rfl
    simp only [Command.lower, emitAll_eq, updateCache, cache_withCode, Command.code,
      Command.cacheAfter]
  | increase target source =>
    apply lower_straight e rfl
    simp only [Command.lower, emit_eq, updateCache, cache_withCode, Command.code,
      Command.cacheAfter]
  | branch left comparison right body =>
    simp only [Command.lower, Command.arrange]
    rw [lowerAll_eq (e.beginBranch left comparison right) body, stage_beginBranch, closeSkips_eq]
    rfl
  | loop body =>
    simp only [Command.lower, Command.arrange]
    rw [lowerAll_eq (e.endSetup.updateCache fun _ => {}) body, stage_beginLoop, endLoop_eq]
    have hskips : e.endSetup.skips.length =
        (e.extend [.loop (!e.setupEnded) (Command.arrangeAll { setupEnded := true } body).1]
          (Command.arrangeAll { setupEnded := true } body).2).skips.length := by
      rw [endSetup_eq]
      rfl
    rw [hskips, closeSkipsTo_length]
    rfl
  | pixel x y => exact lower_straight e rfl (pixel_eq e x y)
  | print text =>
    apply lower_straight e rfl
    simp only [Command.lower, emitAll_eq]
    rfl
  | clear =>
    apply lower_straight e rfl
    simp only [Command.lower, emit_eq]
    rfl
  | move x y =>
    apply lower_straight e rfl
    cases x with
    | «variable» v =>
      simp only [Command.lower, move, emitAll_eq, Command.code]
      rfl
    | literal value =>
      simp only [Command.lower, move, emit_eq, emitAll_eq, withCode_withCode, Command.code,
        List.cons_append, List.nil_append]
      rfl
  | delay cycles =>
    apply lower_straight e rfl
    simp only [Command.lower, emit_eq]
    rfl
  | skipped kind reason =>
    apply ext_toList <;> simp [Command.lower, Command.arrange, report, extend, withCode, stage,
      Block.codeAll, Block.code, Block.diagnosticsAll, Block.diagnostics]

theorem lowerAll_eq (e : Emitter) (cs : List Command) :
    lowerAll e cs =
      e.extend (Command.arrangeAll e.stage cs).1 (Command.arrangeAll e.stage cs).2 := by
  cases cs with
  | nil => simp [lowerAll, Command.arrangeAll]
  | cons c rest =>
    simp only [lowerAll, Command.arrangeAll]
    rw [Command.lower_eq e c, lowerAll_eq _ rest, stage_extend, extend_extend]
    rfl

end

/-! ### Programs -/

def Program.code (p : Program) : List Instruction :=
  Block.codeAll 0 p.blocks

theorem toList_compile_code (p : Program) :
    p.compile.code.toList = Instruction.bytes p.code := by
  simp only [Program.compile, compileCommands, lowerAll_eq, Emitter.firmware, Emitter.extend]
  simp [withCode, address, Program.code, Program.blocks, stage]

theorem Program.size_code (p : Program) : Instruction.size p.code = p.compile.code.size := by
  rw [← Instruction.length_bytes, ← toList_compile_code, Array.length_toList]

theorem diagnostics_compile (p : Program) :
    p.compile.diagnostics = Block.diagnosticsAll 0 p.blocks := by
  simp only [Program.compile, compileCommands, lowerAll_eq, Emitter.firmware, Emitter.extend]
  simp [address, Program.blocks, stage]

end Microboard
