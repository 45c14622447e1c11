import Microboard.Proofs.Firmware.Effects
import Microboard.Proofs.Firmware.Jumps

/-!
# How the machine follows the commands

While a machine runs firmware, the address that it has reached is one at which the commands still to
come can go on (`Continues`): their blocks stand there one behind the other, up to the end of the
code or to the jump back to the start of a loop around them. `Tracks.step` matches every command by
steps of the machine. A loop that is entered for the first time may need none; the measure in
`Continues` bounds how often that can happen in a row.
-/

namespace Microboard

open Instruction Machine

/-! ### Blocks in their places -/

namespace Block

/-- The code of a block stands at an address, and no jump in it overflows. -/
def Settled (code : List Instruction) (address : Nat) (b : Block) : Prop :=
  Stands code address (b.code address) ∧ ∀ j ∈ b.jumps address, ¬ j.Overflows

def SettledAll (code : List Instruction) (address : Nat) (blocks : List Block) : Prop :=
  Stands code address (Block.codeAll address blocks) ∧
    ∀ j ∈ Block.jumpsAll address blocks, ¬ j.Overflows

variable {code : List Instruction} {address : Nat}

theorem SettledAll.head {b : Block} {rest : List Block} (h : SettledAll code address (b :: rest)) :
    b.Settled code address :=
  ⟨h.1.left, fun j hj => h.2 j (List.mem_append_left _ hj)⟩

theorem SettledAll.tail {b : Block} {rest : List Block} (h : SettledAll code address (b :: rest)) :
    SettledAll code (address + b.size) rest := by
  refine ⟨?_, fun j hj => h.2 j (List.mem_append_right _ hj)⟩
  have hright := h.1.right
  rwa [Block.size_code] at hright

section Branch

variable {left : Variable} {comparison : Comparison} {right : UInt8} {body : List Block}

theorem Settled.test (h : (Block.branch left comparison right body).Settled code address) :
    Stands code address (testCode left right) :=
  h.1.left.left

theorem Settled.skips (h : (Block.branch left comparison right body).Settled code address) :
    Stands code (skipsAddress address left right)
      ((skipJumps address left comparison right body).map Jump.instruction) :=
  h.1.left.right

theorem Settled.end_le (h : (Block.branch left comparison right body).Settled code address) :
    bodyAddress address left comparison right + Block.sizeAll body ≤ Emitter.maxTarget := by
  have hskips := fun j hj => h.2 j (List.mem_append_left _ hj)
  cases comparison <;> exact Nat.le_of_not_lt (hskips _ List.mem_cons_self)

theorem Settled.branchBody (h : (Block.branch left comparison right body).Settled code address) :
    SettledAll code (bodyAddress address left comparison right) body := by
  refine ⟨?_, fun j hj => h.2 j (List.mem_append_right _ hj)⟩
  have hright := h.1.right
  rwa [← bodyAddress_eq_add_size] at hright

end Branch

section Loop

variable {first : Bool} {body : List Block}

theorem Settled.setup (h : (Block.loop first body).Settled code address) :
    Stands code address ((setupJumps address first).map Jump.instruction) :=
  h.1.left.left

theorem Settled.loopBody (h : (Block.loop first body).Settled code address) :
    SettledAll code (loopAddress address first) body := by
  refine ⟨?_, fun j hj => h.2 j (List.mem_append_left _ (List.mem_append_right _ hj))⟩
  have hright := h.1.left.right
  rwa [← loopAddress_eq_add_size] at hright

theorem Settled.back (h : (Block.loop first body).Settled code address) :
    Stands code (loopAddress address first + Block.sizeAll body)
      [(backJump address first body).instruction] := by
  have hright := h.1.right
  rwa [size_append, ← Nat.add_assoc, ← loopAddress_eq_add_size, Block.size_codeAll] at hright

theorem Settled.start_fits (h : (Block.loop first body).Settled code address) :
    (UInt8.ofNat (loopAddress address first)).toNat = loopAddress address first :=
  Jump.toNat_target (h.2 (backJump address first body) (List.mem_append_right _ (by simp)))

end Loop

end Block

theorem Program.settled (p : Program) (hoverflow : overflowsOf p.compile.diagnostics = []) :
    Block.SettledAll p.code 0 p.blocks :=
  ⟨Stands.whole p.code, fun _ hj => p.not_overflows hoverflow hj⟩

theorem Program.stop_eq (p : Program) : 0 + Block.sizeAll p.blocks = size p.code := by
  rw [Nat.zero_add, Program.code, Block.size_codeAll]

/-! ### Jumps in a row -/

/-- A row of jumps leads to its target if one of the conditions holds, and behind itself if not. -/
theorem Machine.At.reaches_row {code : List Instruction} {target : Nat}
    (htarget : target ≤ Emitter.maxTarget) (conditions : List Condition) :
    ∀ {m : Machine} {offset : Nat}, m.At code offset →
      Stands code offset ((Jump.row offset target conditions).map Jump.instruction) →
      ∃ k, Reaches code m k (if conditions.any (·.holds m.flag) then target
        else offset + Jump.size * conditions.length) m.working [] := by
  induction conditions with
  | nil =>
    intro m offset h _
    exact ⟨0, Reaches.refl h⟩
  | cons c conditions ih =>
    intro m offset h hstands
    rw [Jump.row, List.map_cons, ← List.singleton_append] at hstands
    have hfirst := h.reaches_jump hstands.left
    have hfits : ¬ (Jump.mk offset c target).Overflows := Nat.not_lt.mpr htarget
    rw [Jump.toNat_target hfits] at hfirst
    by_cases hc : c.holds m.flag = true
    · refine ⟨1, ?_⟩
      simp only [hc, if_true] at hfirst
      simp only [List.any_cons, hc, Bool.true_or, if_true]
      exact hfirst
    · simp only [hc, Bool.false_eq_true, if_false] at hfirst
      have hflag : (m.after 1).flag = m.flag := congrArg Working.flag hfirst.working_eq
      obtain ⟨k, hrest⟩ := ih hfirst.here hstands.right
      refine ⟨1 + k, ?_⟩
      rw [hfirst.working_eq, hflag, Nat.add_assoc, Nat.add_comm Jump.size,
        ← Nat.mul_succ] at hrest
      simp only [List.any_cons, hc, Bool.false_or, List.length_cons]
      exact hfirst.trans hrest

/-- The skips are taken exactly when the comparison fails. -/
theorem Comparison.any_skips (comparison : Comparison) (a b : UInt8) :
    comparison.skips.any (·.holds (Ord.compare a b)) = !comparison.holds a b := by
  have hcompare : Ord.compare a b = if a < b then .lt else if a = b then .eq else .gt := rfl
  by_cases hlt : a < b
  · have hne : a ≠ b := UInt8.ne_of_lt hlt
    have hnot : ¬ b < a := UInt8.lt_asymm hlt
    rw [hcompare, if_pos hlt]
    cases comparison <;> simp [skips, holds, Condition.holds, hlt, hne, hnot]
  · by_cases heq : a = b
    · rw [hcompare, if_neg hlt, if_pos heq]
      cases comparison <;> simp [skips, holds, Condition.holds, heq]
    · have hgt : b < a := UInt8.lt_of_le_of_ne (UInt8.not_lt.mp hlt) (Ne.symm heq)
      rw [hcompare, if_neg hlt, if_neg heq]
      cases comparison <;> simp [skips, holds, Condition.holds, hlt, heq, hgt]

/-- The test and the skips of a conditional lead to its body if the comparison holds, and else past
    it. -/
theorem Machine.At.reaches_branch {code : List Instruction} {m : Machine} {address : Nat}
    (h : m.At code address) {left : Variable} {comparison : Comparison} {right : UInt8}
    {body : List Block} (hsettled : (Block.branch left comparison right body).Settled code address)
    {cache : PixelCache} {scene : Scene} (hshows : Shows cache scene m.working) :
    ∃ k w, 1 ≤ k ∧ Shows cache scene w ∧
      Reaches code m k (if comparison.holds (scene.value left) right then
        bodyAddress address left comparison right
        else bodyAddress address left comparison right + Block.sizeAll body) w [] := by
  have hplain : ∀ i ∈ testCode left right, i.Plain := by
    intro i hi
    simp only [testCode, List.mem_cons, List.not_mem_nil, or_false] at hi
    rcases hi with rfl | rfl
    · exact ⟨compareRegister_lt, rfl⟩
    · exact ⟨⟨left.register_lt, compareRegister_lt⟩, rfl⟩
  obtain ⟨k, hk, htest⟩ := h.reaches_straight hplain hsettled.test
  obtain ⟨l, hrow⟩ := htest.here.reaches_row hsettled.end_le comparison.skips hsettled.skips
  have hregisters := (Registers.SameBut.refl scratchRegisters m.registers).set compare_mem_scratch
    right
  have hleft : (m.registers.set compareRegister right).get left.register = scene.value left := by
    rw [hregisters _ left.register_not_scratch]
    exact hshows.value_eq left
  have hright : (m.registers.set compareRegister right).get compareRegister = right :=
    Registers.get_set_self compareRegister_lt _ _
  have hflag : (m.after k).flag = Ord.compare (scene.value left) right := by
    calc (m.after k).flag = (workAll (testCode left right) m.working).1.flag :=
          congrArg Working.flag htest.working_eq
      _ = Ord.compare ((m.registers.set compareRegister right).get left.register)
            ((m.registers.set compareRegister right).get compareRegister) := rfl
      _ = Ord.compare (scene.value left) right := by rw [hleft, hright]
  have hpos : 1 ≤ k := Nat.le_trans (Nat.le_add_left 1 1) hk
  refine ⟨k + l, (m.after k).working, Nat.le_add_right_of_le hpos, ?_, ?_⟩
  · rw [htest.working_eq]
    exact hshows.scratch hregisters
  · rw [hflag, Comparison.any_skips] at hrow
    have hall := htest.trans hrow
    cases hholds : comparison.holds (scene.value left) right
    · rw [hholds] at hall
      exact hall
    · rw [hholds] at hall
      exact hall

/-! ### What is still to come -/

mutual

/-- How many steps in a row a command can take without any instruction. -/
def Command.weight : Command → Nat
  | .loop body => 1 + Command.weightAll body
  | _ => 1

def Command.weightAll : List Command → Nat
  | [] => 0
  | c :: rest => c.weight + Command.weightAll rest

end

/-- At an address, with a cache that knows at least so much, code goes on with commands. The last
    number bounds how many of them in a row may take no instruction. -/
inductive Continues (code : List Instruction) :
    Nat → PixelCache → List Command → Nat → Prop where
  /-- Behind the code nothing is to come. -/
  | stop {cache : PixelCache} : Continues code (size code) cache [] 0
  /-- The block of the next command, and what follows it. -/
  | command {address : Nat} {s : Stage} {cache : PixelCache} {c : Command} {rest : List Command}
      {bound : Nat} (hcache : s.cache.Within cache)
      (hsettled : (c.arrange s).1.Settled code address)
      (hrest : Continues code (address + (c.arrange s).1.size) (c.arrange s).2.cache rest bound) :
      Continues code address cache (c :: rest) (c.weight + bound)
  /-- The jump back to the start of a loop that is to come again. -/
  | back {address : Nat} {first : Bool} {cache : PixelCache} {body rest : List Command}
      (hsettled : (Block.loop first
        (Command.arrangeAll { setupEnded := true } body).1).Settled code address) :
      Continues code (loopAddress address first
        + Block.sizeAll (Command.arrangeAll { setupEnded := true } body).1)
        cache (.loop body :: rest) 0

namespace Continues

variable {code : List Instruction} {address bound : Nat} {cache known : PixelCache}
  {rest : List Command}

theorem weaken (h : Continues code address cache rest bound) (hcache : cache.Within known) :
    Continues code address known rest bound := by
  cases h with
  | stop => exact .stop
  | command hknown hsettled hrest => exact .command (hknown.trans hcache) hsettled hrest
  | back hsettled => exact .back hsettled

/-- Commands whose blocks stand in front of what is to come are to come first. -/
theorem prepend (cs : List Command) :
    ∀ {s : Stage} {address : Nat}, Block.SettledAll code address (Command.arrangeAll s cs).1 →
      Continues code (address + Block.sizeAll (Command.arrangeAll s cs).1)
        (Command.arrangeAll s cs).2.cache rest bound →
      Continues code address s.cache (cs ++ rest) (Command.weightAll cs + bound) := by
  induction cs with
  | nil =>
    intro s address _ h
    rw [Command.weightAll, Nat.zero_add]
    exact h
  | cons c cs ih =>
    intro s address hsettled h
    simp only [Command.arrangeAll] at hsettled h
    rw [Block.sizeAll, ← Nat.add_assoc] at h
    rw [Command.weightAll, Nat.add_assoc]
    exact .command (PixelCache.Within.refl _) hsettled.head (ih hsettled.tail h)

theorem loop {first : Bool} {body : List Command}
    (hsettled : (Block.loop first
      (Command.arrangeAll { setupEnded := true } body).1).Settled code address) :
    Continues code (loopAddress address first) {} (body ++ .loop body :: rest)
      (Command.weightAll body) := by
  have hback : Continues code (loopAddress address first
      + Block.sizeAll (Command.arrangeAll { setupEnded := true } body).1)
      (Command.arrangeAll { setupEnded := true } body).2.cache (.loop body :: rest) 0 :=
    .back hsettled
  exact prepend body hsettled.loopBody hback

end Continues

/-! ### Following a command -/

/-- A machine tracks commands in a scene: it shows the scene, and is at an address at which its code
    goes on with the commands. -/
def Tracks (code : List Instruction) (cs : List Command) (scene : Scene) (m : Machine)
    (bound : Nat) : Prop :=
  ∃ address cache, m.At code address ∧ Shows cache scene m.working ∧
    Continues code address cache cs bound

theorem Machine.Reaches.tracks {code : List Instruction} {m : Machine} {k address bound : Nat}
    {w : Working} {events : List Event} {cache : PixelCache} {scene : Scene} {cs : List Command}
    (h : Reaches code m k address w events) (hshows : Shows cache scene w)
    (hcontinues : Continues code address cache cs bound) : Tracks code cs scene (m.after k) bound :=
  ⟨address, cache, h.here, h.working_eq ▸ hshows, hcontinues⟩

namespace Command

theorem straight_or_body (c : Command) :
    c.Straight ∨ (∃ left comparison right body, c = .branch left comparison right body) ∨
      ∃ body, c = .loop body := by
  cases c with
  | branch left comparison right body => exact Or.inr (Or.inl ⟨_, _, _, _, rfl⟩)
  | loop body => exact Or.inr (Or.inr ⟨_, rfl⟩)
  | _ => exact Or.inl trivial

variable {c : Command} (h : c.Straight) (s : Stage)
include h

theorem Straight.code_eq (address : Nat) : (c.arrange s).1.code address = c.code s.cache := by
  cases c with
  | branch left comparison right body => cases h
  | loop body => cases h
  | _ => rfl

theorem Straight.size_eq : (c.arrange s).1.size = size (c.code s.cache) := by
  cases c with
  | branch left comparison right body => cases h
  | loop body => cases h
  | _ => rfl

theorem Straight.cache_eq : (c.arrange s).2.cache = c.cacheAfter s.cache := by
  cases c with
  | branch left comparison right body => cases h
  | loop body => cases h
  | _ => rfl

omit s in
theorem Straight.proceed_eq (scene : Scene) (rest : List Command) :
    c.proceed scene rest = rest := by
  cases c with
  | branch left comparison right body => cases h
  | loop body => cases h
  | _ => rfl

end Command

section Step

variable {code : List Instruction} {m : Machine} {address bound : Nat} {s : Stage}
  {cache : PixelCache} {scene : Scene} {rest : List Command}

theorem follow_straight {c : Command} (hc : c.Straight) (h : m.At code address)
    (hshows : Shows s.cache scene m.working) (hsettled : (c.arrange s).1.Settled code address)
    (hrest : Continues code (address + (c.arrange s).1.size) (c.arrange s).2.cache rest bound) :
    ∃ k, Tracks code (c.proceed scene rest) (c.effect scene).1 (m.after k) bound ∧
      m.emitted k = (c.effect scene).2 := by
  have hstands := hsettled.1
  rw [hc.code_eq] at hstands
  rw [hc.size_eq, hc.cache_eq] at hrest
  obtain ⟨k, -, hreaches⟩ := h.reaches_straight (c.code_plain s.cache) hstands
  obtain ⟨hafter, hevents⟩ := Command.workAll_code hshows c
  refine ⟨k, ?_, ?_⟩
  · rw [hc.proceed_eq]
    exact hreaches.tracks hafter hrest
  · rw [hreaches.emitted_eq, hevents]

/-- A conditional is followed by its test, which leads into its body or past it. -/
theorem follow_branch {left : Variable} {comparison : Comparison} {right : UInt8}
    {body : List Command} (h : m.At code address) (hshows : Shows s.cache scene m.working)
    (hsettled : (Command.arrange s (.branch left comparison right body)).1.Settled code address)
    (hrest : Continues code
      (address + (Command.arrange s (.branch left comparison right body)).1.size)
      (Command.arrange s (.branch left comparison right body)).2.cache rest bound) :
    ∃ k ν, 1 ≤ k ∧ m.emitted k = [] ∧
      Tracks code (Command.proceed (.branch left comparison right body) scene rest) scene
        (m.after k) ν := by
  simp only [Command.arrange] at hsettled hrest
  have hend : address + (Block.branch left comparison right (Command.arrangeAll s body).1).size =
      bodyAddress address left comparison right
        + Block.sizeAll (Command.arrangeAll s body).1 := by
    rw [Block.size, ← Nat.add_assoc, ← bodyAddress_eq]
  rw [hend] at hrest
  obtain ⟨k, w, hk, hshown, hreaches⟩ := h.reaches_branch hsettled hshows
  simp only [Command.proceed]
  by_cases hholds : comparison.holds (scene.value left) right = true
  · simp only [hholds, if_true] at hreaches ⊢
    have hinside := hrest.weaken (PixelCache.Within.agreement_left _ _)
    exact ⟨k, _, hk, hreaches.emitted_eq,
      hreaches.tracks hshown (Continues.prepend body hsettled.branchBody hinside)⟩
  · simp only [hholds, Bool.false_eq_true, if_false] at hreaches ⊢
    exact ⟨k, _, hk, hreaches.emitted_eq,
      hreaches.tracks hshown (hrest.weaken (PixelCache.Within.agreement_right _ _))⟩

/-- The setup ends with a jump to where it leads anyway. -/
theorem Machine.At.reaches_loop (h : m.At code address) {first : Bool} {body : List Block}
    (hsettled : (Block.loop first body).Settled code address) :
    ∃ k, Reaches code m k (loopAddress address first) m.working [] := by
  cases first with
  | false => exact ⟨0, Reaches.refl h⟩
  | true =>
    have hjump := h.reaches_jump hsettled.setup
    rw [hsettled.start_fits] at hjump
    exact ⟨1, hjump⟩

theorem Machine.At.reaches_back {first : Bool} {body : List Block}
    (h : m.At code (loopAddress address first + Block.sizeAll body))
    (hsettled : (Block.loop first body).Settled code address) :
    Reaches code m 1 (loopAddress address first) m.working [] := by
  have hjump : Reaches code m 1 (UInt8.ofNat (loopAddress address first)).toNat m.working [] :=
    h.reaches_jump hsettled.back
  rwa [hsettled.start_fits] at hjump

theorem Command.weight_pos (c : Command) : 1 ≤ c.weight := by
  cases c <;> simp only [weight, Nat.le_refl, Nat.le_add_right]

/-- Whatever comes next, the machine follows: by some steps, or else with less to come that needs
    none. -/
theorem Tracks.step {c : Command} (h : Tracks code (c :: rest) scene m bound) :
    ∃ k ν, Tracks code (c.proceed scene rest) (c.effect scene).1 (m.after k) ν ∧
      m.emitted k = (c.effect scene).2 ∧ (1 ≤ k ∨ ν < bound) := by
  obtain ⟨address, cache, hat, hshows, hcontinues⟩ := h
  cases hcontinues with
  | @command _ s _ _ _ ν hcache hsettled hrest =>
    have hknown := hshows.weaken hcache
    have hfewer : ν < c.weight + ν := Nat.lt_add_of_pos_left c.weight_pos
    rcases c.straight_or_body with hc | ⟨left, comparison, right, body, rfl⟩ | ⟨body, rfl⟩
    · obtain ⟨k, htracks, hevents⟩ := follow_straight hc hat hknown hsettled hrest
      exact ⟨k, ν, htracks, hevents, Or.inr hfewer⟩
    · obtain ⟨k, ξ, hk, hevents, htracks⟩ := follow_branch hat hknown hsettled hrest
      exact ⟨k, ξ, htracks, hevents, Or.inl hk⟩
    · obtain ⟨k, hreaches⟩ := hat.reaches_loop hsettled
      refine ⟨k, _, hreaches.tracks (hshows.weaken (PixelCache.Within.empty _)) (.loop hsettled),
        hreaches.emitted_eq, Or.inr ?_⟩
      rw [Command.weight]
      omega
  | @back start first _ body _ hsettled =>
    have hreaches := hat.reaches_back hsettled
    exact ⟨1, _, hreaches.tracks (hshows.weaken (PixelCache.Within.empty _)) (.loop hsettled),
      hreaches.emitted_eq, Or.inl (Nat.le_refl 1)⟩

end Step

end Microboard
