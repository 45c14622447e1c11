import Microboard.Proofs.Firmware.Emission

/-!
# The repertoire of compiled code

Compiled code works on the first eight registers, on the panel and on the outcome of comparisons; it
waits and it jumps. It reads and writes no pin, sends nothing through the serial lines and takes no
sample. All of this is decided when the commands are arranged: `code_compiled`.
-/

namespace Microboard

/-- Number of registers that compiled code uses. -/
def workRegisters : UInt8 := 8

namespace Instruction

/-- Instructions that compiled code is made of. -/
def Compiled : Instruction → Prop
  | .loadImmediate r _ | .screenPrint r | .moveX r | .moveY r => r < workRegisters
  | .add r s | .subtract r s | .compare r s | .drawPixel r s =>
    r < workRegisters ∧ s < workRegisters
  | .screenClear | .delay _ | .jump .. => True
  | .storePin .. | .loadPin .. | .serialWrite _ | .spiWrite _ | .readAdc _ => False

theorem lt_registerCount {r : UInt8} (h : r < workRegisters) : r.toNat < registerCount := by
  have hlt : r.toNat < 8 := h
  unfold registerCount
  omega

theorem Compiled.register_lt {i : Instruction} (h : i.Compiled) {r : UInt8}
    (hr : r ∈ i.registers) : r < workRegisters := by
  cases i with
  | loadImmediate s value =>
    rw [List.mem_singleton.mp hr]
    exact h
  | screenPrint s | moveX s | moveY s =>
    rw [List.mem_singleton.mp hr]
    exact h
  | add s t | subtract s t | compare s t | drawPixel s t =>
    rcases List.mem_cons.mp hr with rfl | ht
    · exact h.1
    · rw [List.mem_singleton.mp ht]
      exact h.2
  | screenClear => cases hr
  | delay cycles => cases hr
  | jump condition target => cases hr
  | storePin s p | loadPin s p => cases h
  | serialWrite s | spiWrite s | readAdc s => cases h

theorem Compiled.addressable {i : Instruction} (h : i.Compiled) : i.Addressable :=
  fun _ hr => lt_registerCount (h.register_lt hr)

/-- Instructions of compiled code other than jumps. -/
def Plain (i : Instruction) : Prop :=
  i.Compiled ∧ i.target? = none

end Instruction

open Instruction

theorem Variable.register_lt (v : Variable) : v.register < workRegisters := by
  cases v <;> decide

theorem Axis.register_lt (axis : Axis) : axis.register < workRegisters := by
  cases axis <;> decide

theorem literalRegister_lt : literalRegister < workRegisters := by decide

theorem compareRegister_lt : compareRegister < workRegisters := by decide

theorem cursorRegister_lt : cursorRegister < workRegisters := by decide

theorem Coordinate.register_lt (axis : Axis) (c : Coordinate) :
    c.register axis < workRegisters := by
  rcases c with (v | value) | value
  · exact v.register_lt
  · exact axis.register_lt
  · exact axis.register_lt

theorem Coordinate.code_plain (cache : PixelCache) (axis : Axis) (c : Coordinate) :
    ∀ i ∈ c.code cache axis, i.Plain := by
  intro i hi
  rcases c with (v | value) | ⟨base, sign, amount⟩
  · cases hi
  · rw [code, List.mem_singleton] at hi
    rw [hi]
    exact ⟨axis.register_lt, rfl⟩
  · simp only [code] at hi
    split at hi
    · cases hi
    · simp only [Emitter.derivation, List.mem_cons, List.not_mem_nil, or_false] at hi
      rcases hi with rfl | rfl | rfl | rfl
      · exact ⟨axis.register_lt, rfl⟩
      · exact ⟨⟨axis.register_lt, base.register_lt⟩, rfl⟩
      · exact ⟨literalRegister_lt, rfl⟩
      · cases sign <;> exact ⟨⟨axis.register_lt, literalRegister_lt⟩, rfl⟩

namespace Command

/-- The code of a command without a body is in the repertoire and holds no jump. -/
theorem code_plain (cache : PixelCache) (c : Command) : ∀ i ∈ c.code cache, i.Plain := by
  intro i hi
  cases c with
  | load target value =>
    rw [code, List.mem_singleton] at hi
    rw [hi]
    exact ⟨target.register_lt, rfl⟩
  | negate target source =>
    simp only [code, List.mem_cons, List.not_mem_nil, or_false] at hi
    rcases hi with rfl | rfl | rfl | rfl
    · exact ⟨literalRegister_lt, rfl⟩
    · exact ⟨⟨literalRegister_lt, source.register_lt⟩, rfl⟩
    · exact ⟨target.register_lt, rfl⟩
    · exact ⟨⟨target.register_lt, literalRegister_lt⟩, rfl⟩
  | increase target source =>
    rw [code, List.mem_singleton] at hi
    rw [hi]
    exact ⟨⟨target.register_lt, source.register_lt⟩, rfl⟩
  | pixel x y =>
    simp only [code, List.mem_append, List.mem_singleton] at hi
    rcases hi with (hx | hy) | rfl
    · exact x.code_plain _ _ i hx
    · exact y.code_plain _ _ i hy
    · exact ⟨⟨x.register_lt .x, y.register_lt .y⟩, rfl⟩
  | print text =>
    simp only [code, List.mem_flatMap, List.mem_cons, List.not_mem_nil, or_false] at hi
    obtain ⟨c, -, rfl | rfl⟩ := hi
    · exact ⟨literalRegister_lt, rfl⟩
    · exact ⟨literalRegister_lt, rfl⟩
  | clear =>
    rw [code, List.mem_singleton] at hi
    rw [hi]
    exact ⟨trivial, rfl⟩
  | move x y =>
    cases x with
    | «variable» v =>
      simp only [code, List.mem_cons, List.not_mem_nil, or_false] at hi
      rcases hi with rfl | rfl | rfl
      · exact ⟨v.register_lt, rfl⟩
      · exact ⟨cursorRegister_lt, rfl⟩
      · exact ⟨cursorRegister_lt, rfl⟩
    | literal value =>
      simp only [code, List.mem_cons, List.not_mem_nil, or_false] at hi
      rcases hi with rfl | rfl | rfl | rfl <;> exact ⟨cursorRegister_lt, rfl⟩
  | delay cycles =>
    rw [code, List.mem_singleton] at hi
    rw [hi]
    exact ⟨trivial, rfl⟩
  | branch left comparison right body => cases hi
  | loop body => cases hi
  | skipped kind reason => cases hi

end Command

/-! ### Blocks -/

mutual

/-- The straight code in a block is in the repertoire and holds no jump. -/
def Block.Plain : Block → Prop
  | .straight code => ∀ i ∈ code, i.Plain
  | .branch _ _ _ body | .loop _ body => Block.AllPlain body
  | .note .. => True

def Block.AllPlain : List Block → Prop
  | [] => True
  | b :: rest => b.Plain ∧ Block.AllPlain rest

end

mutual

theorem Command.arrange_plain (s : Stage) (c : Command) : (c.arrange s).1.Plain := by
  cases c with
  | branch left comparison right body =>
    simp only [Command.arrange, Block.Plain]
    exact Command.arrangeAll_plain s body
  | loop body =>
    simp only [Command.arrange, Block.Plain]
    exact Command.arrangeAll_plain _ body
  | skipped kind reason => exact trivial
  | _ => exact Command.code_plain s.cache _

theorem Command.arrangeAll_plain (s : Stage) (cs : List Command) :
    Block.AllPlain (Command.arrangeAll s cs).1 := by
  cases cs with
  | nil => exact trivial
  | cons c rest =>
    simp only [Command.arrangeAll, Block.AllPlain]
    exact ⟨Command.arrange_plain s c, Command.arrangeAll_plain _ rest⟩

end

theorem Jump.compiled_of_mem_map {jumps : List Jump} {i : Instruction}
    (h : i ∈ jumps.map Jump.instruction) : i.Compiled := by
  obtain ⟨j, -, rfl⟩ := List.mem_map.mp h
  exact trivial

mutual

theorem Block.code_compiled {b : Block} (h : b.Plain) (address : Nat) :
    ∀ i ∈ b.code address, i.Compiled := by
  intro i hi
  cases b with
  | straight code => exact (h i hi).1
  | branch left comparison right body =>
    simp only [Block.code, testCode, List.mem_append, List.mem_cons, List.not_mem_nil,
      or_false] at hi
    rcases hi with ((rfl | rfl) | hskip) | hbody
    · exact compareRegister_lt
    · exact ⟨left.register_lt, compareRegister_lt⟩
    · exact Jump.compiled_of_mem_map hskip
    · exact Block.codeAll_compiled h _ i hbody
  | loop first body =>
    simp only [Block.code, List.mem_append, List.mem_singleton] at hi
    rcases hi with (hsetup | hbody) | rfl
    · exact Jump.compiled_of_mem_map hsetup
    · exact Block.codeAll_compiled h _ i hbody
    · exact trivial
  | note kind reason => cases hi

theorem Block.codeAll_compiled {blocks : List Block} (h : Block.AllPlain blocks) (address : Nat) :
    ∀ i ∈ Block.codeAll address blocks, i.Compiled := by
  intro i hi
  cases blocks with
  | nil => cases hi
  | cons b rest =>
    rcases List.mem_append.mp hi with hfirst | hrest
    · exact Block.code_compiled h.1 address i hfirst
    · exact Block.codeAll_compiled h.2 _ i hrest

end

theorem Program.blocks_plain (p : Program) : Block.AllPlain p.blocks :=
  Command.arrangeAll_plain {} (Program.commands p)

theorem Program.code_compiled (p : Program) : ∀ i ∈ p.code, i.Compiled :=
  Block.codeAll_compiled p.blocks_plain 0

/-- The listing of a program's firmware meets no record that it cannot read. -/
theorem ofImage_compile (p : Program) :
    Listing.ofImage p.compile.code.toList = ⟨placed 0 p.code, none⟩ := by
  rw [toList_compile_code, Listing.ofImage_bytes fun i hi => (p.code_compiled i hi).addressable]

end Microboard
