import Mathlib.Data.Int.ModEq
import Microboard.Proofs.Firmware.Pruning

/-!
# Only the bits that fit matter

The board works with bytes, and a delay is two of them. So two programs that differ only in their
literals, and in these only by multiples of what fits, compile alike, and the characters that they
print count in the same way: `compile_agreeing`. What cannot be expressed is reported with its
literals as they are written, so of these findings only the kinds are the same.
-/

namespace Microboard

/-! ### Programs that agree -/

/-- Expressions that differ only in literals, and in these only by multiples of 256. -/
inductive Expression.Agrees : Expression → Expression → Prop where
  | name (given : String) : Agrees (.name given) (.name given)
  | literal {a b : Int64} (h : a.toInt ≡ b.toInt [ZMOD 256]) : Agrees (.literal a) (.literal b)
  | negation {e f : Expression} (h : Agrees e f) : Agrees (.negation e) (.negation f)
  | shifted (base : String) (sign : Sign) {a b : Int64} (h : a.toInt ≡ b.toInt [ZMOD 256]) :
      Agrees (.shifted base sign a) (.shifted base sign b)

mutual

/-- Statements of the same shape that differ only in literals and in printed characters, and in
    these only by multiples of 256; in the cycles of a delay, of 65536. -/
inductive Statement.Agrees : Statement → Statement → Prop where
  | declare (name : String) {a b : Int64} (h : a.toInt ≡ b.toInt [ZMOD 256]) :
      Agrees (.declare name a) (.declare name b)
  | assign (name : String) (op : AssignOp) {e f : Expression} (h : e.Agrees f) :
      Agrees (.assign name op e) (.assign name op f)
  | branch (left : String) (comparison : Comparison) {a b : Int64} {body other : List Statement}
      (hright : a.toInt ≡ b.toInt [ZMOD 256]) (hbody : AllAgree body other) :
      Agrees (.branch left comparison a body) (.branch left comparison b other)
  | loop {body other : List Statement} (hbody : AllAgree body other) :
      Agrees (.loop body) (.loop other)
  | pixel {x u y v : Expression} (hx : x.Agrees u) (hy : y.Agrees v) :
      Agrees (.pixel x y) (.pixel u v)
  | print {text other : String}
      (h : List.Forall₂ (fun c d : Char => c.toNat ≡ d.toNat [MOD 256]) text.toList other.toList) :
      Agrees (.print text) (.print other)
  | clear : Agrees .clear .clear
  | move {x u : Expression} {a b : Int64} (hx : x.Agrees u) (hy : a.toInt ≡ b.toInt [ZMOD 256]) :
      Agrees (.move x a) (.move u b)
  | delay {a b : Int64} (h : a.toInt ≡ b.toInt [ZMOD 65536]) : Agrees (.delay a) (.delay b)

inductive Statement.AllAgree : List Statement → List Statement → Prop where
  | nil : AllAgree [] []
  | cons {s t : Statement} {ss ts : List Statement} (hfirst : Agrees s t)
      (hrest : AllAgree ss ts) : AllAgree (s :: ss) (t :: ts)

end

/-! ### Literals and expressions -/

theorem lowByte_congr {a b : Int64} (h : a.toInt ≡ b.toInt [ZMOD 256]) : lowByte a = lowByte b := by
  rw [lowByte, lowByte, h.eq]

theorem lowWord_congr {a b : Int64} (h : a.toInt ≡ b.toInt [ZMOD 65536]) :
    lowWord a = lowWord b := by
  rw [lowWord, lowWord, h.eq]

theorem lowBytes_congr {text other : List Char}
    (h : List.Forall₂ (fun c d : Char => c.toNat ≡ d.toNat [MOD 256]) text other) :
    (text.map fun c => UInt8.ofNat (c.toNat % 256)) =
      other.map fun c => UInt8.ofNat (c.toNat % 256) := by
  induction h with
  | nil => rfl
  | cons hfirst _ ih => rw [List.map_cons, List.map_cons, ih, hfirst]

/-- What agrees is a coordinate or not alike, and if it is one, it is the same. -/
theorem Coordinate.resolve_agreeing {e f : Expression} (h : e.Agrees f) :
    e.isCoordinate = f.isCoordinate ∧ (e.isCoordinate = true → resolve e = resolve f) := by
  cases h with
  | name given => exact ⟨rfl, fun _ => rfl⟩
  | literal h => exact ⟨rfl, fun _ => by rw [resolve, resolve, lowByte_congr h]⟩
  | negation h => exact ⟨rfl, fun hnot => by cases hnot⟩
  | shifted base sign h => exact ⟨rfl, fun _ => by simp only [resolve, lowByte_congr h]⟩

theorem Source.resolve_agreeing {e f : Expression} (h : e.Agrees f) :
    e.isColumn = f.isColumn ∧ (e.isColumn = true → resolve e = resolve f) := by
  cases h with
  | name given => exact ⟨rfl, fun _ => rfl⟩
  | literal h => exact ⟨rfl, fun _ => by rw [resolve, resolve, lowByte_congr h]⟩
  | negation h => exact ⟨rfl, fun hnot => by cases hnot⟩
  | shifted base sign h => exact ⟨rfl, fun hnot => by cases hnot⟩

theorem resolveAssignment_agreeing (name : String) (op : AssignOp) {e f : Expression}
    (h : e.Agrees f) :
    op.takes e = op.takes f ∧
      (op.takes e = true → resolveAssignment name op e = resolveAssignment name op f) := by
  cases h with
  | name given => exact ⟨rfl, fun _ => rfl⟩
  | literal h =>
    cases op with
    | set => exact ⟨rfl, fun _ => by simp only [resolveAssignment, lowByte_congr h]⟩
    | _ => exact ⟨rfl, fun hnot => by cases hnot⟩
  | negation h =>
    cases h with
    | name given => exact ⟨rfl, fun _ => rfl⟩
    | _ => cases op <;> exact ⟨rfl, fun hnot => by cases hnot⟩
  | shifted base sign h => cases op <;> exact ⟨rfl, fun hnot => by cases hnot⟩

/-! ### Statements -/

namespace Statement

theorem Agrees.kind_eq {s t : Statement} (h : s.Agrees t) : s.kind = t.kind := by
  cases h <;> rfl

theorem Agrees.expressible_eq {s t : Statement} (h : s.Agrees t) :
    s.expressible = t.expressible := by
  cases h with
  | assign name op h => rw [expressible, expressible, (resolveAssignment_agreeing name op h).1]
  | pixel hx hy =>
    rw [expressible, expressible, (Coordinate.resolve_agreeing hx).1,
      (Coordinate.resolve_agreeing hy).1]
  | move hx hy => rw [expressible, expressible, (Source.resolve_agreeing hx).1]
  | _ => rfl

/-- Without a body, what can be expressed is the same command. -/
theorem Agrees.resolve_eq {s t : Statement} (h : s.Agrees t) (hbody : s.Simple)
    (hexpressible : s.expressible = true) : s.resolve = t.resolve := by
  cases h with
  | declare name h => simp only [resolve, orSkipped, kind, lowByte_congr h]
  | assign name op h =>
    rw [expressible, Bool.and_eq_true] at hexpressible
    simp only [resolve, orSkipped, kind, (resolveAssignment_agreeing name op h).2 hexpressible.2]
  | pixel hx hy =>
    rw [expressible, Bool.and_eq_true] at hexpressible
    simp only [resolve, orSkipped, kind, (Coordinate.resolve_agreeing hx).2 hexpressible.1,
      (Coordinate.resolve_agreeing hy).2 hexpressible.2]
  | print h => rw [resolve, resolve, lowBytes_congr h]
  | clear => rfl
  | move hx hy =>
    simp only [resolve, orSkipped, kind, (Source.resolve_agreeing hx).2 hexpressible,
      lowByte_congr hy]
  | delay h => rw [resolve, resolve, lowWord_congr h]
  | branch left comparison hright hbody' => cases hbody
  | loop hbody' => cases hbody

mutual

/-- What is left of agreeing statements once they are pruned are the same commands, and what is
    taken out is of the same kinds. -/
theorem Agrees.pruned {s t : Statement} (h : s.Agrees t) :
    resolveAll s.pruned = resolveAll t.pruned ∧ s.removed.map kind = t.removed.map kind := by
  have hsimple : s.Simple → t.Simple →
      resolveAll s.pruned = resolveAll t.pruned ∧ s.removed.map kind = t.removed.map kind := by
    intro hs ht
    rw [pruned_of_simple hs, pruned_of_simple ht, removed_of_simple hs, removed_of_simple ht,
      ← h.expressible_eq]
    cases hexpressible : s.expressible with
    | true => simp only [if_true, resolveAll, h.resolve_eq hs hexpressible, and_self]
    | false =>
      simp only [Bool.false_eq_true, if_false, List.map_singleton, h.kind_eq, and_self]
  cases h with
  | @branch left comparison a b body other hright hbody =>
    obtain ⟨hpruned, hremoved⟩ := AllAgree.prunedAll hbody
    cases hknown : Variable.names.contains left with
    | true =>
      simp only [Statement.pruned, removed, expressible, hknown, if_true, resolveAll, resolve,
        orSkipped, kind, lowByte_congr hright, hpruned, hremoved, and_self]
    | false =>
      simp only [Statement.pruned, removed, expressible, hknown, Bool.false_eq_true, if_false,
        List.map_singleton, kind, and_self]
  | loop hbody =>
    obtain ⟨hpruned, hremoved⟩ := AllAgree.prunedAll hbody
    simp only [Statement.pruned, removed, resolveAll, resolve, hpruned, hremoved, and_self]
  | _ => exact hsimple trivial trivial

theorem AllAgree.prunedAll {ss ts : List Statement} (h : AllAgree ss ts) :
    resolveAll (Statement.prunedAll ss) = resolveAll (Statement.prunedAll ts) ∧
      (removedAll ss).map kind = (removedAll ts).map kind := by
  cases h with
  | nil => exact ⟨rfl, rfl⟩
  | cons hfirst hrest =>
    obtain ⟨hpruned, hremoved⟩ := Agrees.pruned hfirst
    obtain ⟨hprunedRest, hremovedRest⟩ := AllAgree.prunedAll hrest
    simp only [Statement.prunedAll, removedAll, resolveAll_append, List.map_append, hpruned,
      hremoved, hprunedRest, hremovedRest, and_self]

end

end Statement

/-! ### Programs -/

theorem Statement.AllAgree.prunedAll_blocks {p q : Program} (h : AllAgree p q) :
    Block.prunedAll p.blocks = Block.prunedAll q.blocks := by
  rw [← p.blocks_pruned, ← q.blocks_pruned, Program.blocks, Program.blocks, Program.commands,
    Program.commands, h.prunedAll.1]

/-- Programs of the same shape whose literals and printed characters are congruent modulo 256, or
    modulo 65536 where they are the cycles of a delay, have the same firmware and the same
    overflows. They have as many statements that cannot be expressed, which are reported in the same
    order and are of the same kinds. -/
theorem Program.compile_agreeing {p q : Program} (h : Statement.AllAgree p q) :
    p.compile.code = q.compile.code ∧
      p.compile.diagnostics.filter Diagnostic.isOverflow =
        q.compile.diagnostics.filter Diagnostic.isOverflow ∧
      p.compile.diagnostics.filterMap Diagnostic.statement? =
        q.compile.diagnostics.filterMap Diagnostic.statement? := by
  have hblocks := h.prunedAll_blocks
  have hremoved : (Statement.removedAll p).map Statement.kind =
      (Statement.removedAll q).map Statement.kind := h.prunedAll.2
  refine ⟨?_, ?_, ?_⟩
  · -- Code is the code of what is left once the notes are pruned.
    have hcode : p.code = q.code := by
      rw [code, code, ← Block.codeAll_prunedAll, hblocks, Block.codeAll_prunedAll]
    rw [← Array.toList_inj, toList_compile_code, toList_compile_code, hcode]
  · rw [diagnostics_compile, diagnostics_compile, ← Block.diagnosticsAll_prunedAll, hblocks,
      Block.diagnosticsAll_prunedAll]
  · have hp := Statement.filterMap_diagnosticsAll {} 0 p
    have hq := Statement.filterMap_diagnosticsAll {} 0 q
    rw [diagnostics_compile, diagnostics_compile]
    exact hp.trans (hremoved.trans hq.symm)

/-- Two programs that share no literal and no character. In both, the second pixel finds its column
    where the first one left it; what cannot be expressed is reported with different details. -/
theorem Program.compile_agreeing_apart :
    let p : Program :=
      [.declare "x" 3, .branch "x" .greater (-1) [.pixel (.shifted "x" .plus 1) (.literal 7),
        .pixel (.shifted "x" .plus 257) (.literal (-249)), .delay 2],
        .print "A", .move (.negation (.literal 4)) 9]
    let q : Program :=
      [.declare "x" (-253), .branch "x" .greater 255 [.pixel (.shifted "x" .plus (-255))
        (.literal 263), .pixel (.shifted "x" .plus 513) (.literal 519), .delay (-65534)],
        .print "Ł", .move (.negation (.literal 260)) 265]
    Statement.AllAgree p q ∧ p.compile.code = q.compile.code ∧
      p.compile.diagnostics ≠ q.compile.diagnostics ∧
      p.compile.diagnostics.filterMap Diagnostic.statement? = ["ScreenMove"] ∧
      q.compile.diagnostics.filterMap Diagnostic.statement? = ["ScreenMove"] := by
  intro p q
  have hagree : Statement.AllAgree p q := by
    refine .cons (.declare "x" ?_) (.cons (.branch "x" .greater ?_ ?_) (.cons (.print ?_)
      (.cons (.move (.negation (.literal ?_)) ?_) .nil)))
    · decide
    · decide
    · refine .cons (.pixel (.shifted "x" .plus ?_) (.literal ?_))
        (.cons (.pixel (.shifted "x" .plus ?_) (.literal ?_)) (.cons (.delay ?_) .nil)) <;> decide
    · exact .cons (by decide) .nil
    · decide
    · decide
  obtain ⟨hcode, -, hkinds⟩ := Program.compile_agreeing hagree
  have hp : p.compile.diagnostics.filterMap Diagnostic.statement? = ["ScreenMove"] := by decide
  exact ⟨hagree, hcode, by decide, hp, hkinds ▸ hp⟩

end Microboard
