import Mathlib.Data.List.Nodup
import Microboard.Proofs.Firmware.Control

/-!
# Waypoints

Each instruction of a program's code is told together with what is known in front of it: what the
pixel registers hold at an earlier point, and the straight code between that point and the
instruction (`Waypoint`). `Program.map_place_waypoints` says that these are the instructions of the
code, each of them once. `Statement.visits` lists the statements that lowering comes to, each with
the emitter in front of it, and `Lies.visits` finds the code and the waypoints of each of them in
those of the program.
-/

namespace Microboard

open Instruction

/-- An instruction in its place. In front of the instructions that are done before it, the pixel
    registers hold what the cache says. -/
structure Waypoint where
  offset : Nat
  instruction : Instruction
  cache : PixelCache
  done : List Instruction

namespace Waypoint

def place (t : Waypoint) : Nat × Instruction :=
  (t.offset, t.instruction)

/-- The waypoints of instructions in a row, behind others that are done. -/
def row (address : Nat) (cache : PixelCache) (done : List Instruction) :
    List Instruction → List Waypoint
  | [] => []
  | i :: is =>
    ⟨address, i, cache, done⟩ :: row (address + i.opcode.recordLength) cache (done ++ [i]) is

theorem map_place_row (cache : PixelCache) (is : List Instruction) :
    ∀ (address : Nat) (done : List Instruction),
      (row address cache done is).map place = placed address is := by
  induction is with
  | nil =>
    intro address done
    rfl
  | cons i is ih =>
    intro address done
    rw [row, List.map_cons, ih, placed, place]

theorem append_of_mem_row {t : Waypoint} {cache : PixelCache} {is : List Instruction} :
    ∀ {address : Nat} {done : List Instruction}, t ∈ row address cache done is →
      ∃ front rest, is = front ++ t.instruction :: rest ∧ t.offset = address + size front ∧
        t.cache = cache ∧ t.done = done ++ front := by
  induction is with
  | nil =>
    intro address done h
    cases h
  | cons i is ih =>
    intro address done h
    rcases List.mem_cons.mp h with rfl | hmem
    · exact ⟨[], is, rfl, rfl, rfl, (List.append_nil done).symm⟩
    · obtain ⟨front, rest, rfl, hoffset, hcache, hdone⟩ := ih hmem
      refine ⟨i :: front, rest, rfl, ?_, hcache, ?_⟩
      · rw [hoffset, size_cons, Nat.add_assoc]
      · rw [hdone, List.append_assoc, List.singleton_append]

end Waypoint

open Waypoint

/-! ### The waypoints of a program -/

mutual

/-- The waypoints of a command whose code starts at an address. In a row of jumps the pixel
    registers stay as they are. -/
def Command.waypoints (s : Stage) (address : Nat) : Command → List Waypoint
  | .branch left comparison right body =>
    let blocks := (Command.arrangeAll s body).1
    row address s.cache [] (testCode left right
        ++ (skipJumps address left comparison right blocks).map Jump.instruction)
      ++ Command.waypointsAll s (bodyAddress address left comparison right) body
  | .loop body =>
    let blocks := (Command.arrangeAll { setupEnded := true } body).1
    let first := !s.setupEnded
    row address {} [] ((setupJumps address first).map Jump.instruction)
      ++ Command.waypointsAll { setupEnded := true } (loopAddress address first) body
      ++ row (loopAddress address first + Block.sizeAll blocks) {} []
        [(backJump address first blocks).instruction]
  | c => row address s.cache [] (c.code s.cache)

def Command.waypointsAll (s : Stage) (address : Nat) : List Command → List Waypoint
  | [] => []
  | c :: rest =>
    c.waypoints s address
      ++ Command.waypointsAll (c.arrange s).2 (address + (c.arrange s).1.size) rest

end

theorem Command.Straight.waypoints_eq {c : Command} (h : c.Straight) (s : Stage) (address : Nat) :
    c.waypoints s address = row address s.cache [] (c.code s.cache) := by
  cases c with
  | branch left comparison right body => cases h
  | loop body => cases h
  | _ => rfl

mutual

/-- The waypoints of a command are the instructions of its code. -/
theorem Command.map_place_waypoints (s : Stage) (address : Nat) (c : Command) :
    (c.waypoints s address).map place = placed address ((c.arrange s).1.code address) := by
  rcases c.straight_or_body with hc | ⟨left, comparison, right, body, rfl⟩ | ⟨body, rfl⟩
  · rw [hc.waypoints_eq, map_place_row, hc.code_eq]
  · simp only [Command.waypoints, Command.arrange, Block.code]
    rw [List.map_append, map_place_row, Command.map_place_waypointsAll s _ body,
      placed_append _ (testCode left right ++ _), ← bodyAddress_eq_add_size]
  · simp only [Command.waypoints, Command.arrange, Block.code]
    rw [List.map_append, List.map_append, map_place_row, map_place_row,
      Command.map_place_waypointsAll _ _ body, placed_append, placed_append, size_append,
      ← Nat.add_assoc, ← loopAddress_eq_add_size, Block.size_codeAll]

theorem Command.map_place_waypointsAll (s : Stage) (address : Nat) (cs : List Command) :
    (Command.waypointsAll s address cs).map place =
      placed address (Block.codeAll address (Command.arrangeAll s cs).1) := by
  cases cs with
  | nil => rfl
  | cons c rest =>
    simp only [Command.waypointsAll, Command.arrangeAll, Block.codeAll]
    rw [List.map_append, Command.map_place_waypoints s address c,
      Command.map_place_waypointsAll _ _ rest, placed_append, Block.size_code]

end

namespace Program

def waypoints (p : Program) : List Waypoint :=
  Command.waypointsAll {} 0 p.commands

theorem map_place_waypoints (p : Program) : p.waypoints.map place = placed 0 p.code :=
  Command.map_place_waypointsAll {} 0 p.commands

theorem place_mem (p : Program) {t : Waypoint} (h : t ∈ p.waypoints) :
    (t.offset, t.instruction) ∈ placed 0 p.code := by
  rw [← p.map_place_waypoints]
  exact List.mem_map_of_mem h

/-- At an offset there is one waypoint at most. -/
theorem waypoint_unique (p : Program) {t u : Waypoint} (ht : t ∈ p.waypoints)
    (hu : u ∈ p.waypoints) (hoffset : t.offset = u.offset) : t = u := by
  have hnodup : (p.waypoints.map Waypoint.offset).Nodup := by
    have hplaces : p.waypoints.map Waypoint.offset = (placed 0 p.code).map Prod.fst := by
      rw [← p.map_place_waypoints, List.map_map]
      rfl
    rw [hplaces, List.Nodup, List.pairwise_map]
    exact (pairwise_placed 0 p.code).imp Nat.ne_of_lt
  exact List.inj_on_of_nodup_map hnodup ht hu hoffset

end Program

/-! ### The statements that lowering comes to -/

namespace Statement

mutual

/-- The statements that lowering comes to, each with the emitter in front of it. The body of a
    conditional on an unknown variable is not lowered. -/
def visits (e : Emitter) : Statement → List (Emitter × Statement)
  | .branch left comparison right body =>
    (e, .branch left comparison right body) ::
      match Variable.ofName? left with
      | some v => visitsAll (e.beginBranch v comparison (lowByte right)) body
      | none => []
  | .loop body => (e, .loop body) :: visitsAll (e.endSetup.updateCache fun _ => {}) body
  | s => [(e, s)]

def visitsAll (e : Emitter) : List Statement → List (Emitter × Statement)
  | [] => []
  | s :: rest => s.visits e ++ visitsAll (s.resolve.lower e) rest

end

end Statement

/-- The code of a statement that an emitter has come to stands in code, and its waypoints are among
    those of the code. -/
structure Lies (code : List Instruction) (all : List Waypoint) (e : Emitter) (s : Statement) :
    Prop where
  settled : (s.resolve.arrange e.stage).1.Settled code e.address
  waypoints_subset : s.resolve.waypoints e.stage e.address ⊆ all

section Visits

variable {code : List Instruction} {all : List Waypoint}

mutual

theorem Lies.visits {e : Emitter} {s : Statement} (h : Lies code all e s) :
    ∀ v ∈ s.visits e, Lies code all v.1 v.2 := by
  intro v hv
  cases s with
  | branch left comparison right body =>
    rcases List.mem_cons.mp hv with rfl | hbody
    · exact h
    · cases hleft : Variable.ofName? left with
      | none =>
        rw [hleft] at hbody
        cases hbody
      | some base =>
        rw [hleft] at hbody
        obtain ⟨hsettled, hsubset⟩ := h
        simp only [Statement.resolve, Variable.resolve, hleft] at hsettled hsubset
        obtain ⟨-, hinside⟩ := List.append_subset.mp hsubset
        apply Lies.visitsAll _ _ v hbody
        · rw [Emitter.stage_beginBranch, Emitter.address_beginBranch]
          exact hsettled.branchBody
        · rw [Emitter.stage_beginBranch, Emitter.address_beginBranch]
          exact hinside
  | loop body =>
    rcases List.mem_cons.mp hv with rfl | hbody
    · exact h
    · obtain ⟨hsettled, hsubset⟩ := h
      obtain ⟨hfront, -⟩ := List.append_subset.mp hsubset
      obtain ⟨-, hinside⟩ := List.append_subset.mp hfront
      have haddress : (e.endSetup.updateCache fun _ => {}).address =
          loopAddress e.address !e.setupEnded := e.address_endSetup
      apply Lies.visitsAll _ _ v hbody
      · rw [Emitter.stage_beginLoop, haddress]
        exact hsettled.loopBody
      · rw [Emitter.stage_beginLoop, haddress]
        exact hinside
  | _ =>
    rw [List.mem_singleton.mp hv]
    exact h

theorem Lies.visitsAll {e : Emitter} {ss : List Statement}
    (hsettled : Block.SettledAll code e.address
      (Command.arrangeAll e.stage (Statement.resolveAll ss)).1)
    (hsubset : Command.waypointsAll e.stage e.address (Statement.resolveAll ss) ⊆ all) :
    ∀ v ∈ Statement.visitsAll e ss, Lies code all v.1 v.2 := by
  intro v hv
  cases ss with
  | nil => cases hv
  | cons s rest =>
    obtain ⟨hhere, hbehind⟩ := List.append_subset.mp hsubset
    rcases List.mem_append.mp hv with hfirst | hrest
    · exact Lies.visits ⟨hsettled.head, hhere⟩ v hfirst
    · apply Lies.visitsAll _ _ v hrest
      · rw [Command.lower_eq, Emitter.stage_extend, Emitter.address_extend]
        exact hsettled.tail
      · rw [Command.lower_eq, Emitter.stage_extend, Emitter.address_extend]
        exact hbehind

end

end Visits

end Microboard
