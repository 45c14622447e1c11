import Microboard.Proofs.Firmware.Meaning
import Microboard.Proofs.Machine.Work

/-!
# What the code of a command does

The registers show a scene: each variable has its register, and the pixel registers hold the values
that the cache says. The code of a command turns registers that show a scene into registers that
show the scene behind the command, and gives the events of the command: `workAll_code`.
-/

namespace Microboard

open Instruction

/-! ### Registers -/

namespace Registers

/-- Registers that differ in no others than these. -/
def SameBut (changed : List UInt8) (a b : Registers) : Prop :=
  ∀ r, r ∉ changed → b.get r = a.get r

namespace SameBut

variable {changed : List UInt8} {a b : Registers}

theorem refl (changed : List UInt8) (a : Registers) : SameBut changed a a :=
  fun _ _ => rfl

theorem set (h : SameBut changed a b) {r : UInt8} (hr : r ∈ changed) (value : UInt8) :
    SameBut changed a (b.set r value) := by
  intro s hs
  have hne : s ≠ r := fun heq => hs (heq ▸ hr)
  rw [get_set_of_ne hne, h s hs]

end SameBut

theorem get_set_self {r : UInt8} (h : r < workRegisters) (registers : Registers) (value : UInt8) :
    (registers.set r value).get r = value := by
  rw [get_set (lt_registerCount h), if_pos rfl]

end Registers

open Registers

/-- The registers that hold something for a moment only. -/
def scratchRegisters : List UInt8 :=
  [literalRegister, compareRegister, cursorRegister]

theorem Variable.register_not_scratch (v : Variable) : v.register ∉ scratchRegisters := by
  cases v <;> decide

theorem Axis.register_not_scratch (axis : Axis) : axis.register ∉ scratchRegisters := by
  cases axis <;> decide

theorem Variable.register_not_mem_axis (v : Variable) (axis : Axis) :
    v.register ∉ axis.register :: scratchRegisters := by
  cases v <;> cases axis <;> decide

theorem Axis.register_not_mem_variable (axis : Axis) (v : Variable) :
    axis.register ∉ v.register :: scratchRegisters := by
  cases axis <;> cases v <;> decide

theorem Variable.register_not_mem {u v : Variable} (h : u ≠ v) :
    u.register ∉ v.register :: scratchRegisters := by
  revert h
  cases u <;> cases v <;> decide

theorem Axis.register_not_mem {a b : Axis} (h : a ≠ b) :
    a.register ∉ b.register :: scratchRegisters := by
  revert h
  cases a <;> cases b <;> decide

theorem Variable.register_ne_literal (v : Variable) : v.register ≠ literalRegister := by
  cases v <;> decide

theorem Axis.register_ne_literal (axis : Axis) : axis.register ≠ literalRegister := by
  cases axis <;> decide

/-! ### Caches -/

namespace PixelCache

theorem get_agreement (a b : PixelCache) (axis : Axis) :
    (a.agreement b).get axis = if a.get axis = b.get axis then a.get axis else none := by
  cases axis <;> rfl

/-- What one cache knows, the other knows as well. -/
def Within (a b : PixelCache) : Prop :=
  ∀ axis value, a.get axis = some value → b.get axis = some value

namespace Within

variable {a b c : PixelCache}

theorem refl (a : PixelCache) : a.Within a :=
  fun _ _ h => h

theorem trans (h : a.Within b) (hbc : b.Within c) : a.Within c :=
  fun axis value hvalue => hbc axis value (h axis value hvalue)

theorem empty (a : PixelCache) : Within {} a := by
  intro axis value h
  cases axis <;> cases h

theorem agreement_left (a b : PixelCache) : (a.agreement b).Within a := by
  intro axis value h
  rw [get_agreement] at h
  split at h
  · exact h
  · cases h

theorem agreement_right (a b : PixelCache) : (a.agreement b).Within b := by
  intro axis value h
  rw [get_agreement] at h
  split at h
  · rename_i hagree
    rwa [← hagree]
  · cases h

end Within

theorem get_forget {v : Variable} {cache : PixelCache} {axis : Axis} {value : Shifted}
    (h : (cache.forget v).get axis = some value) :
    cache.get axis = some value ∧ value.base ≠ v := by
  cases axis <;> simp only [forget, get, Option.filter_eq_some_iff, decide_eq_true_eq] at h ⊢ <;>
    exact h

theorem get_set_self (cache : PixelCache) (axis : Axis) (entry : Option Shifted) :
    (cache.set axis entry).get axis = entry := by
  cases axis <;> rfl

theorem get_set_of_ne {a b : Axis} (h : a ≠ b) (cache : PixelCache) (entry : Option Shifted) :
    (cache.set b entry).get a = cache.get a := by
  revert h
  cases a <;> cases b <;> simp [set, get]

end PixelCache

/-! ### Showing a scene -/

/-- What is worked on shows a scene: the variables, the coordinates that the pixel registers hold,
    and the panel. -/
structure Shows (cache : PixelCache) (scene : Scene) (w : Working) : Prop where
  value_eq : ∀ v : Variable, w.registers.get v.register = scene.value v
  cached : ∀ axis value, cache.get axis = some value →
    w.registers.get axis.register = scene.shifted value
  panel_eq : w.panel = scene.panel

namespace Scene

theorem shifted_assign {scene : Scene} {v : Variable} {value : Shifted} (h : value.base ≠ v)
    (assigned : UInt8) : (scene.assign v assigned).shifted value = scene.shifted value := by
  simp only [shifted, assign, if_neg h]

end Scene

namespace Shows

variable {cache known : PixelCache} {scene : Scene} {w : Working} {registers : Registers}
  {flag : Ordering}

theorem weaken (h : Shows cache scene w) (hknown : known.Within cache) : Shows known scene w :=
  ⟨h.value_eq, fun axis value hvalue => h.cached axis value (hknown axis value hvalue),
    h.panel_eq⟩

/-- The scratch registers and the outcome of a comparison show nothing. -/
theorem scratch (h : Shows cache scene w)
    (hsame : SameBut scratchRegisters w.registers registers) :
    Shows cache scene { w with registers, flag } := by
  refine ⟨?_, ?_, h.panel_eq⟩
  · intro v
    rw [hsame _ v.register_not_scratch, h.value_eq v]
  · intro axis value hvalue
    rw [hsame _ axis.register_not_scratch, h.cached axis value hvalue]

theorem withPanel (h : Shows cache scene w) (panel : Panel) :
    Shows cache { scene with panel } { w with panel } :=
  ⟨h.value_eq, h.cached, rfl⟩

/-- A new value of a variable makes the cache forget what was derived from the old one. -/
theorem assign (h : Shows cache scene w) {v : Variable} {value : UInt8}
    (hsame : SameBut (v.register :: scratchRegisters) w.registers registers)
    (hvalue : registers.get v.register = value) :
    Shows (cache.forget v) (scene.assign v value) { w with registers } := by
  refine ⟨?_, ?_, h.panel_eq⟩
  · intro u
    by_cases huv : u = v
    · rw [huv, hvalue]
      simp only [Scene.assign, if_true]
    · rw [hsame _ (Variable.register_not_mem huv), h.value_eq u]
      simp only [Scene.assign, if_neg huv]
  · intro axis held hheld
    obtain ⟨hcached, hbase⟩ := PixelCache.get_forget hheld
    rw [hsame _ (axis.register_not_mem_variable v), h.cached axis held hcached,
      Scene.shifted_assign hbase]

/-- A new value in a pixel register makes the cache remember only what is said about it. -/
theorem set (h : Shows cache scene w) {axis : Axis} {entry : Option Shifted}
    (hsame : SameBut (axis.register :: scratchRegisters) w.registers registers)
    (hentry : ∀ value, entry = some value →
      registers.get axis.register = scene.shifted value) :
    Shows (cache.set axis entry) scene { w with registers } := by
  refine ⟨?_, ?_, h.panel_eq⟩
  · intro v
    rw [hsame _ (v.register_not_mem_axis axis), h.value_eq v]
  · intro other value hvalue
    by_cases heq : other = axis
    · subst heq
      rw [PixelCache.get_set_self] at hvalue
      exact hentry value hvalue
    · rw [PixelCache.get_set_of_ne heq] at hvalue
      rw [hsame _ (Axis.register_not_mem heq), h.cached other value hvalue]

end Shows

/-! ### Commands -/

theorem literal_mem_scratch : literalRegister ∈ scratchRegisters := by decide

theorem compare_mem_scratch : compareRegister ∈ scratchRegisters := by decide

theorem cursor_mem_scratch : cursorRegister ∈ scratchRegisters := by decide

theorem literal_mem_cons (r : UInt8) : literalRegister ∈ r :: scratchRegisters :=
  List.mem_cons_of_mem r literal_mem_scratch

theorem workAll_derivation (w : Working) (axis : Axis) (base : Variable) (sign : Sign)
    (amount : UInt8) :
    ∃ registers, workAll (Emitter.derivation axis.register ⟨base, sign, amount⟩) w =
        ({ w with registers }, []) ∧
      SameBut (axis.register :: scratchRegisters) w.registers registers ∧
      registers.get axis.register =
        match sign with
        | .plus => w.registers.get base.register + amount
        | .minus => w.registers.get base.register - amount := by
  have hbase : base.register ≠ axis.register :=
    fun heq => base.register_not_mem_axis axis (heq ▸ List.mem_cons_self)
  obtain ⟨cleared, hcleared⟩ :
      ∃ cleared, cleared = w.registers.set axis.register 0 := ⟨_, rfl⟩
  obtain ⟨copied, hcopied⟩ :
      ∃ copied, copied = cleared.add axis.register base.register := ⟨_, rfl⟩
  obtain ⟨ready, hready⟩ :
      ∃ ready, ready = copied.set literalRegister amount := ⟨_, rfl⟩
  have hvalue : ready.get axis.register = w.registers.get base.register := by
    rw [hready, get_set_of_ne axis.register_ne_literal, hcopied, Registers.add,
      Registers.get_set_self axis.register_lt, hcleared, Registers.get_set_self axis.register_lt,
      get_set_of_ne hbase, UInt8.zero_add]
  have hamount : ready.get literalRegister = amount := by
    rw [hready, Registers.get_set_self literalRegister_lt]
  have hsame : SameBut (axis.register :: scratchRegisters) w.registers ready := by
    rw [hready, hcopied, hcleared]
    exact (((SameBut.refl _ _).set List.mem_cons_self _).set List.mem_cons_self _).set
      (literal_mem_cons _) _
  cases sign with
  | plus =>
    refine ⟨ready.add axis.register literalRegister, ?_, hsame.set List.mem_cons_self _, ?_⟩
    · rw [hready, hcopied, hcleared]
      rfl
    · rw [Registers.add, Registers.get_set_self axis.register_lt, hvalue, hamount]
  | minus =>
    refine ⟨ready.subtract axis.register literalRegister, ?_, hsame.set List.mem_cons_self _, ?_⟩
    · rw [hready, hcopied, hcleared]
      rfl
    · rw [Registers.subtract, Registers.get_set_self axis.register_lt, hvalue, hamount]

/-- The code of a coordinate brings its value into its register, and changes no other register that
    shows something. -/
theorem Coordinate.workAll_code {cache : PixelCache} {scene : Scene} {w : Working}
    (h : Shows cache scene w) (axis : Axis) (c : Coordinate) :
    ∃ registers, workAll (c.code cache axis) w = ({ w with registers }, []) ∧
      SameBut (axis.register :: scratchRegisters) w.registers registers ∧
      registers.get (c.register axis) = scene.coordinate c ∧
      Shows (c.cacheAfter cache axis) scene { w with registers } := by
  rcases c with (v | value) | value
  · exact ⟨w.registers, rfl, SameBut.refl _ _, h.value_eq v, h⟩
  · have hsame := (SameBut.refl (axis.register :: scratchRegisters) w.registers).set
      List.mem_cons_self value
    refine ⟨_, rfl, hsame, Registers.get_set_self axis.register_lt _ _, h.set hsame ?_⟩
    intro held hheld
    cases hheld
  · by_cases hheld : cache.get axis = some value
    · refine ⟨w.registers, ?_, SameBut.refl _ _, h.cached axis value hheld, ?_⟩
      · simp only [Coordinate.code, if_pos hheld, workAll]
      · have hset : cache.set axis (some value) = cache := by
          cases axis <;> simp only [PixelCache.get] at hheld <;>
            simp only [PixelCache.set, ← hheld]
        simp only [Coordinate.cacheAfter, hset]
        exact h
    · obtain ⟨base, sign, amount⟩ := value
      obtain ⟨registers, hwork, hsame, hvalue⟩ := workAll_derivation w axis base sign amount
      have hshifted : registers.get axis.register = scene.shifted ⟨base, sign, amount⟩ := by
        rw [hvalue, h.value_eq base]
        rfl
      refine ⟨registers, ?_, hsame, hshifted, h.set hsame ?_⟩
      · simp only [Coordinate.code, if_neg hheld]
        exact hwork
      · intro value heq
        cases heq
        exact hshifted

namespace Command

/-- The code of both coordinates brings their values into their registers. -/
theorem workAll_coordinates {cache : PixelCache} {scene : Scene} {w : Working}
    (h : Shows cache scene w) (x y : Coordinate) :
    let ready := workAll (x.code cache .x ++ y.code (x.cacheAfter cache .x) .y) w
    Shows (cacheAfter cache (.pixel x y)) scene ready.1 ∧ ready.2 = [] ∧
      ready.1.registers.get (x.register .x) = scene.coordinate x ∧
      ready.1.registers.get (y.register .y) = scene.coordinate y := by
  obtain ⟨first, hfirst, -, hx, hshows⟩ := x.workAll_code h .x
  obtain ⟨second, hsecond, hsame, hy, hboth⟩ := y.workAll_code hshows .y
  -- The code of the second coordinate leaves the register of the first one alone.
  have hkept : second.get (x.register .x) = scene.coordinate x := by
    have hne : Axis.x ≠ Axis.y := by decide
    have hother : x.register .x ∉ Axis.y.register :: scratchRegisters := by
      rcases x with (v | value) | value
      · exact v.register_not_mem_axis .y
      · exact Axis.register_not_mem hne
      · exact Axis.register_not_mem hne
    rw [hsame _ hother, hx]
  intro ready
  have hready : ready = ({ w with registers := second }, []) := by
    simp only [ready, workAll_append, hfirst, hsecond, List.nil_append]
  rw [hready]
  exact ⟨hboth, rfl, hkept, hy⟩

theorem workAll_pixel {cache : PixelCache} {scene : Scene} {w : Working}
    (h : Shows cache scene w) (x y : Coordinate) :
    Shows (cacheAfter cache (.pixel x y)) scene (workAll (code cache (.pixel x y)) w).1 ∧
      (workAll (code cache (.pixel x y)) w).2 =
        [.pixel (scene.coordinate x) (scene.coordinate y)] := by
  obtain ⟨hshows, hnone, hx, hy⟩ := workAll_coordinates h x y
  rw [code, workAll_append, hnone]
  simp only [workAll, work, hx, hy]
  exact ⟨hshows, rfl⟩

theorem workAll_print {cache : PixelCache} (text : List UInt8) :
    ∀ {scene : Scene} {w : Working}, Shows cache scene w →
      Shows cache (scene.printAll text).1 (workAll (code cache (.print text)) w).1 ∧
        (workAll (code cache (.print text)) w).2 = (scene.printAll text).2 := by
  induction text with
  | nil =>
    intro scene w h
    exact ⟨h, rfl⟩
  | cons c text ih =>
    intro scene w h
    have hset := (SameBut.refl scratchRegisters w.registers).set literal_mem_scratch c
    have hget := Registers.get_set_self literalRegister_lt w.registers c
    have hscratch : Shows cache scene { w with registers := w.registers.set literalRegister c } :=
      h.scratch hset
    obtain ⟨hshows, hevents⟩ := ih (hscratch.withPanel (scene.panel.print c).1)
    have hcode : code cache (.print (c :: text)) =
        [.loadImmediate literalRegister c, .screenPrint literalRegister]
          ++ code cache (.print text) := rfl
    rw [hcode, workAll_append]
    simp only [workAll, work, hget, h.panel_eq, Scene.printAll, List.nil_append, List.append_nil]
    exact ⟨hshows, by rw [hevents]⟩

theorem workAll_move {cache : PixelCache} {scene : Scene} {w : Working}
    (h : Shows cache scene w) (x : Source) (y : UInt8) :
    Shows cache (scene.move (scene.source x) y).1 (workAll (code cache (.move x y)) w).1 ∧
      (workAll (code cache (.move x y)) w).2 = (scene.move (scene.source x) y).2 := by
  cases x with
  | «variable» v =>
    have hset := (SameBut.refl scratchRegisters w.registers).set cursor_mem_scratch y
    have hscratch : Shows cache scene { w with registers := w.registers.set cursorRegister y } :=
      h.scratch hset
    have hget := Registers.get_set_self cursorRegister_lt w.registers y
    simp only [code, workAll, work, hget, h.panel_eq, h.value_eq v, Scene.move, Scene.source,
      List.nil_append, List.append_nil]
    exact ⟨hscratch.withPanel _, trivial⟩
  | literal value =>
    have hset := ((SameBut.refl scratchRegisters w.registers).set cursor_mem_scratch value).set
      cursor_mem_scratch y
    have hscratch : Shows cache scene { w with
        registers := (w.registers.set cursorRegister value).set cursorRegister y } :=
      h.scratch hset
    have hx := Registers.get_set_self cursorRegister_lt w.registers value
    have hy := Registers.get_set_self cursorRegister_lt (w.registers.set cursorRegister value) y
    simp only [code, workAll, work, hx, hy, h.panel_eq, Scene.move, Scene.source,
      List.nil_append, List.append_nil]
    exact ⟨hscratch.withPanel _, trivial⟩

theorem workAll_negate {cache : PixelCache} {scene : Scene} {w : Working}
    (h : Shows cache scene w) (target source : Variable) :
    Shows (cacheAfter cache (.negate target source))
        (scene.assign target (0 - scene.value source))
        (workAll (code cache (.negate target source)) w).1 ∧
      (workAll (code cache (.negate target source)) w).2 = [] := by
  obtain ⟨negated, hnegated⟩ : ∃ negated, negated =
      (w.registers.set literalRegister 0).subtract literalRegister source.register := ⟨_, rfl⟩
  obtain ⟨cleared, hcleared⟩ : ∃ cleared, cleared = negated.set target.register 0 := ⟨_, rfl⟩
  have hliteral : negated.get literalRegister = 0 - scene.value source := by
    rw [hnegated, Registers.subtract, Registers.get_set_self literalRegister_lt,
      Registers.get_set_self literalRegister_lt, get_set_of_ne source.register_ne_literal,
      h.value_eq]
  have hkept : cleared.get literalRegister = 0 - scene.value source := by
    rw [hcleared, get_set_of_ne target.register_ne_literal.symm, hliteral]
  have hzero : cleared.get target.register = 0 := by
    rw [hcleared, Registers.get_set_self target.register_lt]
  have hsame : SameBut (target.register :: scratchRegisters) w.registers cleared := by
    rw [hcleared, hnegated]
    exact (((SameBut.refl _ _).set (literal_mem_cons _) _).set (literal_mem_cons _) _).set
      List.mem_cons_self _
  have hvalue : (cleared.add target.register literalRegister).get target.register =
      0 - scene.value source := by
    rw [Registers.add, Registers.get_set_self target.register_lt, hzero, hkept, UInt8.zero_add]
  have hshows := h.assign (hsame.set List.mem_cons_self _) hvalue
  rw [hcleared, hnegated] at hshows
  exact ⟨hshows, rfl⟩

/-- The code of a command does what the command does. -/
theorem workAll_code {cache : PixelCache} {scene : Scene} {w : Working}
    (h : Shows cache scene w) (c : Command) :
    Shows (c.cacheAfter cache) (c.effect scene).1 (workAll (c.code cache) w).1 ∧
      (workAll (c.code cache) w).2 = (c.effect scene).2 := by
  cases c with
  | load target value =>
    have hsame := (SameBut.refl (target.register :: scratchRegisters) w.registers).set
      List.mem_cons_self value
    exact ⟨h.assign hsame (Registers.get_set_self target.register_lt _ _), rfl⟩
  | negate target source => exact workAll_negate h target source
  | increase target source =>
    have hsame := (SameBut.refl (target.register :: scratchRegisters) w.registers).set
      List.mem_cons_self (w.registers.get target.register + w.registers.get source.register)
    refine ⟨h.assign hsame ?_, rfl⟩
    rw [Registers.add, Registers.get_set_self target.register_lt, h.value_eq, h.value_eq]
  | pixel x y => exact workAll_pixel h x y
  | print text => exact workAll_print text h
  | clear =>
    simp only [code, workAll, work, h.panel_eq, effect, List.append_nil]
    exact ⟨h.withPanel _, trivial⟩
  | move x y => exact workAll_move h x y
  | branch left comparison right body => exact ⟨h, rfl⟩
  | loop body => exact ⟨h, rfl⟩
  | delay cycles => exact ⟨h, rfl⟩
  | skipped kind reason => exact ⟨h, rfl⟩

end Command

end Microboard
