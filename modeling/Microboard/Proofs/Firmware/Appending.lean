import Microboard.Proofs.Firmware.Emission
import Microboard.Proofs.Firmware.Meaning

/-!
# Lowering only appends

Ending a conditional patches code that was emitted before, and a loop lets all skips end that were
opened in its body. Still, whatever is lowered, everything that was there in front of it stays as it
is, and the same skips are open behind it: what is patched was emitted for the statement itself, and
a body leaves nothing for the loop around it to end. So the firmware of a program begins with the
firmware of each of its beginnings: `lowering_appends`.
-/

namespace Microboard

/-- What was emitted before is still there, with more behind it, and the same skips are open. -/
structure Emitter.Grows (before after : Emitter) : Prop where
  code_prefix : before.code.toList <+: after.code.toList
  diagnostics_prefix : before.diagnostics.toList <+: after.diagnostics.toList
  skips_eq : after.skips = before.skips

namespace Emitter

theorem grows_extend (e : Emitter) (blocks : List Block) (s : Stage) :
    e.Grows (e.extend blocks s) := by
  constructor
  · rw [toList_extend]
    exact List.prefix_append _ _
  · simp only [extend, Array.toList_appendList]
    exact List.prefix_append _ _
  · rfl

theorem grows_lowerAll (e : Emitter) (cs : List Command) : e.Grows (lowerAll e cs) := by
  rw [lowerAll_eq]
  exact e.grows_extend _ _

/-- No byte in front of the address is touched. -/
theorem Grows.getElem?_eq {before after : Emitter} (h : before.Grows after) {i : Nat}
    (hi : i < before.address) : after.code[i]? = before.code[i]? := by
  obtain ⟨more, hmore⟩ := h.code_prefix
  rw [← Array.getElem?_toList, ← hmore, List.getElem?_append_left hi, Array.getElem?_toList]

theorem skips_endSetup (e : Emitter) : e.endSetup.skips = e.skips := by
  rw [endSetup_eq]
  rfl

end Emitter

open Emitter

theorem lowerAll_append (e : Emitter) (cs more : List Command) :
    lowerAll e (cs ++ more) = lowerAll (lowerAll e cs) more := by
  induction cs generalizing e with
  | nil => rfl
  | cons c cs ih => rw [List.cons_append, lowerAll, lowerAll, ih]

/-- A loop finds no skip of its body open, so all that ends it is the jump back. -/
theorem Command.lower_loop (e : Emitter) (body : List Command) :
    let inside := lowerAll (e.endSetup.updateCache fun _ => {}) body
    inside.skips = e.skips ∧ (Command.loop body).lower e = inside.endLoop e.endSetup.address := by
  intro inside
  have hinside : inside.skips = e.endSetup.skips :=
    (grows_lowerAll (e.endSetup.updateCache fun _ => {}) body).skips_eq
  have hend : (inside.endLoop e.endSetup.address).skips = e.endSetup.skips := by
    rw [endLoop, emitJump_eq]
    exact hinside
  constructor
  · rw [hinside, skips_endSetup]
  · calc (Command.loop body).lower e
        = (inside.endLoop e.endSetup.address).closeSkipsTo e.endSetup.skips.length := by
          rw [Command.lower]
      _ = inside.endLoop e.endSetup.address := by
          rw [← hend, closeSkipsTo_length]

/-- Lowering statements, whatever has been emitted before and whichever skips are open, leaves every
    byte that is there as it is, appends to the code and to the diagnostics, and leaves the same
    skips open. So at the end of a loop no skip of its body is open and nothing is left to be
    patched, and at the end of a program no skip is open at all. The firmware of a program is a
    prefix of the firmware of the program with more statements behind it, and so are the
    diagnostics. -/
theorem Program.lowering_appends :
    (∀ (e : Emitter) (ss : List Statement),
      let after := lowerAll e (Statement.resolveAll ss)
      e.Grows after ∧ ∀ i < e.address, after.code[i]? = e.code[i]?) ∧
    (∀ (e : Emitter) (body : List Statement),
      let inside := lowerAll (e.endSetup.updateCache fun _ => {}) (Statement.resolveAll body)
      inside.skips = e.skips ∧
        (Statement.loop body).resolve.lower e = inside.endLoop e.endSetup.address) ∧
    (∀ p : Program, (lowerAll {} p.commands).skips = []) ∧
    ∀ p q : Program,
      p.compile.code.toList <+: (Program.compile (p ++ q)).code.toList ∧
        p.compile.diagnostics <+: (Program.compile (p ++ q)).diagnostics := by
  refine ⟨?_, ?_, ?_, ?_⟩
  · intro e ss after
    have hgrows : e.Grows after := e.grows_lowerAll (Statement.resolveAll ss)
    exact ⟨hgrows, fun i hi => hgrows.getElem?_eq hi⟩
  · intro e body
    exact Command.lower_loop e (Statement.resolveAll body)
  · intro p
    exact (grows_lowerAll {} p.commands).skips_eq
  · intro p q
    have hcommands : Program.commands (p ++ q) = p.commands ++ q.commands :=
      Statement.resolveAll_append p q
    have hgrows := (lowerAll {} p.commands).grows_lowerAll q.commands
    rw [← lowerAll_append, ← hcommands] at hgrows
    exact ⟨hgrows.code_prefix, hgrows.diagnostics_prefix⟩

end Microboard
