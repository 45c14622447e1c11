import Microboard.Proofs.Firmware.Emission
import Microboard.Proofs.Firmware.Meaning

/-!
# What cannot be expressed leaves no trace in the code

A statement that the board cannot express is reported and otherwise left out. `prunedAll` takes all
such statements out of a program, and `removedAll` lists them; both look at the program alone.
Compiling the rest gives the same code and the same overflows, and what is reported besides is one
finding for each statement that was taken out: `compile_pruned`.
-/

namespace Microboard

/-! ### Statements that can be expressed -/

def Variable.names : List String := ["x", "y", "dx"]

/-- A literal, a variable, or a variable and a literal added or subtracted. -/
def Expression.isCoordinate : Expression → Bool
  | .literal _ => true
  | .name given | .shifted given _ _ => Variable.names.contains given
  | .negation _ => false

/-- A literal or a variable. -/
def Expression.isColumn : Expression → Bool
  | .literal _ => true
  | .name given => Variable.names.contains given
  | .negation _ | .shifted .. => false

/-- A variable can be set to a literal or to the negative of a variable, and a variable can be added
    to it. -/
def AssignOp.takes : AssignOp → Expression → Bool
  | .set, .literal _ => true
  | .set, .negation (.name source) | .add, .name source => Variable.names.contains source
  | _, _ => false

namespace Statement

/-- Whether the statement itself can be expressed, whatever stands in its body. -/
def expressible : Statement → Bool
  | .declare name _ => Variable.names.contains name
  | .assign name op value => Variable.names.contains name && op.takes value
  | .branch left .. => Variable.names.contains left
  | .pixel x y => x.isCoordinate && y.isCoordinate
  | .move x _ => x.isColumn
  | .loop _ | .print _ | .clear | .delay _ => true

/-- A statement that has no body. -/
def Simple : Statement → Prop
  | .branch .. | .loop _ => False
  | _ => True

mutual

/-- The statement without what its body has that cannot be expressed; nothing, if it cannot be
    expressed itself. -/
def pruned : Statement → List Statement
  | .branch left comparison right body =>
    if (branch left comparison right body).expressible then
      [.branch left comparison right (prunedAll body)]
    else []
  | .loop body => [.loop (prunedAll body)]
  | s => if s.expressible then [s] else []

def prunedAll : List Statement → List Statement
  | [] => []
  | s :: rest => s.pruned ++ prunedAll rest

end

mutual

/-- What pruning takes out, in order. The body of a conditional that is taken out goes with it and
    is not listed. -/
def removed : Statement → List Statement
  | .branch left comparison right body =>
    if (branch left comparison right body).expressible then removedAll body
    else [.branch left comparison right body]
  | .loop body => removedAll body
  | s => if s.expressible then [] else [s]

def removedAll : List Statement → List Statement
  | [] => []
  | s :: rest => s.removed ++ removedAll rest

end

end Statement

/-! ### Statements and their commands -/

theorem Variable.resolve_cases (name : String) :
    (names.contains name = true ∧ ∃ v, resolve name = .ok v) ∨
      (names.contains name = false ∧ ∃ reason, resolve name = .error reason) := by
  have hnames : names.contains name = (ofName? name).isSome := by
    rw [Bool.eq_iff_iff, ofName?, List.find?_isSome]
    simp [names, Variable.name, @eq_comm _ name]
  rw [hnames, resolve]
  cases ofName? name with
  | none => exact Or.inr ⟨rfl, _, rfl⟩
  | some v => exact Or.inl ⟨rfl, v, rfl⟩

theorem Coordinate.resolve_cases (e : Expression) :
    (e.isCoordinate = true ∧ ∃ c, resolve e = .ok c) ∨
      (e.isCoordinate = false ∧ ∃ reason, resolve e = .error reason) := by
  cases e with
  | name given | shifted given sign amount =>
    rcases Variable.resolve_cases given with ⟨hknown, v, hv⟩ | ⟨hunknown, reason, hreason⟩
    · exact Or.inl ⟨hknown, _, by rw [resolve, hv]; rfl⟩
    · exact Or.inr ⟨hunknown, reason, by rw [resolve, hreason]; rfl⟩
  | literal value => exact Or.inl ⟨rfl, _, rfl⟩
  | negation operand => exact Or.inr ⟨rfl, _, rfl⟩

theorem Source.resolve_cases (e : Expression) :
    (e.isColumn = true ∧ ∃ c, resolve e = .ok c) ∨
      (e.isColumn = false ∧ ∃ reason, resolve e = .error reason) := by
  cases e with
  | name given =>
    rcases Variable.resolve_cases given with ⟨hknown, v, hv⟩ | ⟨hunknown, reason, hreason⟩
    · exact Or.inl ⟨hknown, _, by rw [resolve, hv]; rfl⟩
    · exact Or.inr ⟨hunknown, reason, by rw [resolve, hreason]; rfl⟩
  | literal value => exact Or.inl ⟨rfl, _, rfl⟩
  | negation operand => exact Or.inr ⟨rfl, _, rfl⟩
  | shifted base sign amount => exact Or.inr ⟨rfl, _, rfl⟩

theorem resolveAssignment_takes {name : String} {v : Variable}
    (hv : Variable.resolve name = .ok v) (op : AssignOp) (value : Expression) :
    (op.takes value = true ∧ ∃ c, resolveAssignment name op value = .ok c ∧
        ∀ s : Stage, ∃ code, (c.arrange s).1 = .straight code) ∨
      (op.takes value = false ∧ ∃ reason, resolveAssignment name op value = .error reason) := by
  have hsource : ∀ (source : String) (command : Variable → Variable → Command),
      (∀ w, ∀ s : Stage, ∃ code, ((command v w).arrange s).1 = .straight code) →
      (Variable.names.contains source = true ∧
          ∃ c, (Variable.resolve source).map (command v) = .ok c ∧
            ∀ s : Stage, ∃ code, (c.arrange s).1 = .straight code) ∨
        (Variable.names.contains source = false ∧
          ∃ reason, (Variable.resolve source).map (command v) = .error reason) := by
    intro source command hstraight
    rcases Variable.resolve_cases source with ⟨hknown, w, hw⟩ | ⟨hunknown, reason, hreason⟩
    · exact Or.inl ⟨hknown, _, by rw [hw]; rfl, hstraight w⟩
    · exact Or.inr ⟨hunknown, reason, by rw [hreason]; rfl⟩
  rw [resolveAssignment, hv]
  unfold AssignOp.takes
  split
  · exact Or.inl ⟨rfl, _, rfl, fun _ => ⟨_, rfl⟩⟩
  · exact hsource _ .negate fun _ _ => ⟨_, rfl⟩
  · exact hsource _ .increase fun _ _ => ⟨_, rfl⟩
  · refine Or.inr ⟨rfl, .assignment name op value, ?_⟩
    simp only [bind, Except.bind]

/-- A statement without a body becomes code, or a finding that names it. -/
theorem Statement.resolve_cases {s : Statement} (hbody : s.Simple) :
    (s.expressible = true ∧ ∀ stage, ∃ code, (s.resolve.arrange stage).1 = .straight code) ∨
      (s.expressible = false ∧ ∃ reason, s.resolve = .skipped s.kind reason) := by
  cases s with
  | declare name value =>
    rcases Variable.resolve_cases name with ⟨hknown, v, hv⟩ | ⟨hunknown, reason, hreason⟩
    · refine Or.inl ⟨hknown, fun stage => ?_⟩
      rw [resolve, hv]
      exact ⟨_, rfl⟩
    · exact Or.inr ⟨hunknown, reason, by rw [resolve, hreason]; rfl⟩
  | assign name op value =>
    rw [expressible]
    rcases Variable.resolve_cases name with ⟨hknown, v, hv⟩ | ⟨hunknown, reason, hreason⟩
    · rw [hknown, Bool.true_and]
      rcases resolveAssignment_takes hv op value with
        ⟨htakes, c, hc, hstraight⟩ | ⟨htakes, reason, hreason⟩
      · refine Or.inl ⟨htakes, ?_⟩
        rw [resolve, hc]
        exact hstraight
      · exact Or.inr ⟨htakes, reason, by rw [resolve, hreason]; rfl⟩
    · rw [hunknown, Bool.false_and]
      refine Or.inr ⟨rfl, reason, ?_⟩
      rw [resolve, resolveAssignment, hreason]
      rfl
  | pixel x y =>
    rw [expressible]
    rcases Coordinate.resolve_cases x with ⟨hx, a, ha⟩ | ⟨hx, reason, hreason⟩
    · rcases Coordinate.resolve_cases y with ⟨hy, b, hb⟩ | ⟨hy, reason, hreason⟩
      · refine Or.inl ⟨by rw [hx, hy]; rfl, fun stage => ?_⟩
        rw [resolve, ha, hb]
        exact ⟨_, rfl⟩
      · exact Or.inr ⟨by rw [hx, hy]; rfl, reason, by rw [resolve, ha, hreason]; rfl⟩
    · exact Or.inr ⟨by rw [hx]; rfl, reason, by rw [resolve, hreason]; rfl⟩
  | move x y =>
    rcases Source.resolve_cases x with ⟨hx, a, ha⟩ | ⟨hx, reason, hreason⟩
    · refine Or.inl ⟨hx, fun stage => ?_⟩
      rw [resolve, ha]
      exact ⟨_, rfl⟩
    · exact Or.inr ⟨hx, reason, by rw [resolve, hreason]; rfl⟩
  | print text => exact Or.inl ⟨rfl, fun _ => ⟨_, rfl⟩⟩
  | clear => exact Or.inl ⟨rfl, fun _ => ⟨_, rfl⟩⟩
  | delay cycles => exact Or.inl ⟨rfl, fun _ => ⟨_, rfl⟩⟩
  | branch left comparison right body => cases hbody
  | loop body => cases hbody

namespace Statement

theorem pruned_of_simple {s : Statement} (hbody : s.Simple) :
    s.pruned = if s.expressible then [s] else [] := by
  cases s with
  | branch left comparison right body => cases hbody
  | loop body => cases hbody
  | _ => rfl

theorem removed_of_simple {s : Statement} (hbody : s.Simple) :
    s.removed = if s.expressible then [] else [s] := by
  cases s with
  | branch left comparison right body => cases hbody
  | loop body => cases hbody
  | _ => rfl

end Statement

/-! ### Blocks without their notes -/

open Emitter (codeAll_append diagnosticsAll_append)

mutual

def Block.pruned : Block → List Block
  | .branch left comparison right body =>
    [.branch left comparison right (Block.prunedAll body)]
  | .loop first body => [.loop first (Block.prunedAll body)]
  | .note .. => []
  | b => [b]

def Block.prunedAll : List Block → List Block
  | [] => []
  | b :: rest => b.pruned ++ Block.prunedAll rest

end

def Diagnostic.isOverflow : Diagnostic → Bool
  | .addressOverflow .. => true
  | .unsupported .. => false

def Diagnostic.statement? : Diagnostic → Option String
  | .addressOverflow .. => none
  | .unsupported kind _ => some kind

theorem isOverflow_of_mem_jumps {jumps : List Jump} {d : Diagnostic}
    (h : d ∈ jumps.flatMap Jump.diagnostics) : d.isOverflow = true := by
  obtain ⟨j, -, hj⟩ := List.mem_flatMap.mp h
  unfold Jump.diagnostics at hj
  split at hj
  · rw [List.mem_singleton.mp hj]
    rfl
  · cases hj

theorem filter_jumps (jumps : List Jump) :
    (jumps.flatMap Jump.diagnostics).filter Diagnostic.isOverflow =
      jumps.flatMap Jump.diagnostics := by
  rw [List.filter_eq_self]
  intro d hd
  exact isOverflow_of_mem_jumps hd

theorem filterMap_jumps (jumps : List Jump) :
    (jumps.flatMap Jump.diagnostics).filterMap Diagnostic.statement? = [] := by
  rw [List.filterMap_eq_nil_iff]
  intro d hd
  have hoverflow := isOverflow_of_mem_jumps hd
  cases d with
  | addressOverflow address target => rfl
  | unsupported kind reason => cases hoverflow

theorem Block.sizeAll_append (blocks more : List Block) :
    Block.sizeAll (blocks ++ more) = Block.sizeAll blocks + Block.sizeAll more := by
  induction blocks with
  | nil => rw [List.nil_append, Block.sizeAll, Nat.zero_add]
  | cons b blocks ih => rw [List.cons_append, Block.sizeAll, ih, Block.sizeAll, Nat.add_assoc]

mutual

/-- A note takes no room, so nothing moves when it is gone. -/
theorem Block.sizeAll_pruned (b : Block) : Block.sizeAll b.pruned = b.size := by
  cases b with
  | branch left comparison right body =>
    simp only [Block.pruned, Block.sizeAll, Block.size, Block.sizeAll_prunedAll body, Nat.add_zero]
  | loop first body =>
    simp only [Block.pruned, Block.sizeAll, Block.size, Block.sizeAll_prunedAll body, Nat.add_zero]
  | straight code => rfl
  | note kind reason => rfl

theorem Block.sizeAll_prunedAll (blocks : List Block) :
    Block.sizeAll (Block.prunedAll blocks) = Block.sizeAll blocks := by
  cases blocks with
  | nil => rfl
  | cons b rest =>
    rw [Block.prunedAll, Block.sizeAll_append, Block.sizeAll_pruned b,
      Block.sizeAll_prunedAll rest, Block.sizeAll]

end

mutual

theorem Block.codeAll_pruned (address : Nat) (b : Block) :
    Block.codeAll address b.pruned = b.code address := by
  cases b with
  | branch left comparison right body =>
    simp only [Block.pruned, Block.codeAll, Block.code, skipJumps, Block.sizeAll_prunedAll,
      Block.codeAll_prunedAll _ body, List.append_nil]
  | loop first body =>
    simp only [Block.pruned, Block.codeAll, Block.code, backJump, Block.sizeAll_prunedAll,
      Block.codeAll_prunedAll _ body, List.append_nil]
  | straight code => exact List.append_nil code
  | note kind reason => rfl

theorem Block.codeAll_prunedAll (address : Nat) (blocks : List Block) :
    Block.codeAll address (Block.prunedAll blocks) = Block.codeAll address blocks := by
  cases blocks with
  | nil => rfl
  | cons b rest =>
    rw [Block.prunedAll, codeAll_append, Block.sizeAll_pruned, Block.codeAll_pruned _ b,
      Block.codeAll_prunedAll _ rest, Block.codeAll]

end

mutual

/-- Of what is reported about a block, its jumps account for the overflows, and its notes for the
    rest. -/
theorem Block.diagnosticsAll_pruned (address : Nat) (b : Block) :
    Block.diagnosticsAll address b.pruned =
      (b.diagnostics address).filter Diagnostic.isOverflow := by
  cases b with
  | branch left comparison right body =>
    simp only [Block.pruned, Block.diagnosticsAll, Block.diagnostics, skipJumps,
      Block.sizeAll_prunedAll, Block.diagnosticsAll_prunedAll _ body, List.append_nil,
      List.filter_append, filter_jumps]
  | loop first body =>
    have hback := filter_jumps [backJump address first body]
    rw [List.flatMap_singleton] at hback
    simp only [Block.pruned, Block.diagnosticsAll, Block.diagnostics, backJump,
      Block.sizeAll_prunedAll, Block.diagnosticsAll_prunedAll _ body, List.append_nil,
      List.filter_append, filter_jumps]
    rw [← backJump, hback]
  | straight code => rfl
  | note kind reason => rfl

theorem Block.diagnosticsAll_prunedAll (address : Nat) (blocks : List Block) :
    Block.diagnosticsAll address (Block.prunedAll blocks) =
      (Block.diagnosticsAll address blocks).filter Diagnostic.isOverflow := by
  cases blocks with
  | nil => rfl
  | cons b rest =>
    rw [Block.prunedAll, diagnosticsAll_append, Block.sizeAll_pruned,
      Block.diagnosticsAll_pruned _ b, Block.diagnosticsAll_prunedAll _ rest, Block.diagnosticsAll,
      List.filter_append]

end

/-! ### Pruned statements and their blocks -/

theorem Command.arrangeAll_append (s : Stage) (cs more : List Command) :
    arrangeAll s (cs ++ more) =
      ((arrangeAll s cs).1 ++ (arrangeAll (arrangeAll s cs).2 more).1,
        (arrangeAll (arrangeAll s cs).2 more).2) := by
  induction cs generalizing s with
  | nil => rfl
  | cons c cs ih => simp only [List.cons_append, arrangeAll, ih]

open Statement in
mutual

/-- The blocks of a pruned statement are those of the statement without their notes, and nothing is
    known less or more behind them. -/
theorem Statement.arrangeAll_pruned (stage : Stage) (s : Statement) :
    Command.arrangeAll stage (resolveAll s.pruned) =
      ((s.resolve.arrange stage).1.pruned, (s.resolve.arrange stage).2) := by
  -- A skipped command leaves the stage as it is, so what follows is arranged alike without it.
  have hsimple : s.Simple → Command.arrangeAll stage (resolveAll s.pruned) =
      ((s.resolve.arrange stage).1.pruned, (s.resolve.arrange stage).2) := by
    intro hbody
    rw [pruned_of_simple hbody]
    rcases resolve_cases hbody with ⟨hexpressible, hcode⟩ | ⟨hnot, reason, hreason⟩
    · obtain ⟨code, hcode⟩ := hcode stage
      have hsingle : Command.arrangeAll stage (resolveAll [s]) =
        ([(s.resolve.arrange stage).1], (s.resolve.arrange stage).2) := rfl
      rw [if_pos hexpressible, hsingle, hcode]
      rfl
    · rw [hnot, hreason]
      rfl
  cases s with
  | branch left comparison right body =>
    rw [pruned, expressible]
    rcases Variable.resolve_cases left with ⟨hknown, v, hv⟩ | ⟨hunknown, reason, hreason⟩
    · have hresolve : ∀ body, (branch left comparison right body).resolve =
          .branch v comparison (lowByte right) (resolveAll body) := by
        intro body
        rw [resolve, hv]
        rfl
      rw [if_pos hknown, resolveAll, resolveAll, hresolve, hresolve]
      simp only [Command.arrangeAll, Command.arrange, Statement.arrangeAll_prunedAll stage body,
        Block.pruned]
    · rw [hunknown, resolve, hreason]
      rfl
  | loop body =>
    simp only [pruned, resolveAll, resolve, Command.arrangeAll, Command.arrange,
      Statement.arrangeAll_prunedAll _ body, Block.pruned]
  | _ => exact hsimple trivial

theorem Statement.arrangeAll_prunedAll (stage : Stage) (ss : List Statement) :
    Command.arrangeAll stage (resolveAll (prunedAll ss)) =
      (Block.prunedAll (Command.arrangeAll stage (resolveAll ss)).1,
        (Command.arrangeAll stage (resolveAll ss)).2) := by
  cases ss with
  | nil => rfl
  | cons s rest =>
    rw [prunedAll, resolveAll_append, Command.arrangeAll_append, Statement.arrangeAll_pruned _ s,
      Statement.arrangeAll_prunedAll _ rest]
    rfl

end

open Statement in
mutual

/-- A statement that cannot be expressed is noted once, where it stands. -/
theorem Statement.filterMap_diagnostics (stage : Stage) (address : Nat) (s : Statement) :
    ((s.resolve.arrange stage).1.diagnostics address).filterMap Diagnostic.statement? =
      s.removed.map kind := by
  have hsimple : s.Simple →
      ((s.resolve.arrange stage).1.diagnostics address).filterMap Diagnostic.statement? =
        s.removed.map kind := by
    intro hbody
    rw [removed_of_simple hbody]
    rcases resolve_cases hbody with ⟨hexpressible, hcode⟩ | ⟨hnot, reason, hreason⟩
    · obtain ⟨code, hcode⟩ := hcode stage
      rw [hcode, if_pos hexpressible]
      rfl
    · rw [hreason, hnot]
      rfl
  cases s with
  | branch left comparison right body =>
    rw [removed, expressible]
    rcases Variable.resolve_cases left with ⟨hknown, v, hv⟩ | ⟨hunknown, reason, hreason⟩
    · rw [if_pos hknown, resolve, hv]
      simp only [bind, Except.bind, pure, Except.pure, orSkipped, Command.arrange,
        Block.diagnostics, List.filterMap_append, filterMap_jumps, List.append_nil,
        Statement.filterMap_diagnosticsAll stage _ body]
    · rw [hunknown, resolve, hreason]
      rfl
  | loop body =>
    have hback := filterMap_jumps [backJump address (!stage.setupEnded)
      (Command.arrangeAll { setupEnded := true } (resolveAll body)).1]
    rw [List.flatMap_singleton] at hback
    simp only [removed, resolve, Command.arrange, Block.diagnostics, List.filterMap_append,
      filterMap_jumps, hback, List.nil_append, List.append_nil,
      Statement.filterMap_diagnosticsAll _ _ body]
  | _ => exact hsimple trivial

theorem Statement.filterMap_diagnosticsAll (stage : Stage) (address : Nat) (ss : List Statement) :
    (Block.diagnosticsAll address (Command.arrangeAll stage (resolveAll ss)).1).filterMap
        Diagnostic.statement? =
      (removedAll ss).map kind := by
  cases ss with
  | nil => rfl
  | cons s rest =>
    simp only [resolveAll, Command.arrangeAll, Block.diagnosticsAll, List.filterMap_append,
      removedAll, List.map_append, Statement.filterMap_diagnostics stage _ s,
      Statement.filterMap_diagnosticsAll _ _ rest]

end

theorem Program.blocks_pruned (p : Program) :
    Program.blocks (Statement.prunedAll p) = Block.prunedAll p.blocks := by
  rw [blocks, commands, Statement.arrangeAll_prunedAll]
  rfl

/-- Compiling a program without the statements that cannot be expressed, at any level, gives the
    code of the whole program, and of its findings the overflows in their order. The other findings
    are one for each statement that was taken out, in the order of the program and with the kind of
    the statement; the body of a conditional that was taken out has none. -/
theorem Program.compile_pruned (p : Program) :
    let rest : Program := Statement.prunedAll p
    rest.compile.code = p.compile.code ∧
      rest.compile.diagnostics = p.compile.diagnostics.filter Diagnostic.isOverflow ∧
      p.compile.diagnostics.filterMap Diagnostic.statement? =
        (Statement.removedAll p).map Statement.kind := by
  intro rest
  have hblocks : rest.blocks = Block.prunedAll p.blocks := p.blocks_pruned
  refine ⟨?_, ?_, ?_⟩
  · rw [← Array.toList_inj, toList_compile_code, toList_compile_code, Program.code, hblocks,
      Block.codeAll_prunedAll]
    rfl
  · rw [diagnostics_compile, diagnostics_compile, hblocks, Block.diagnosticsAll_prunedAll]
  · rw [diagnostics_compile]
    exact Statement.filterMap_diagnosticsAll {} 0 p

end Microboard
