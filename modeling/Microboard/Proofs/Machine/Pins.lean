import Microboard.Proofs.Machine.Fetch
import Microboard.Proofs.Machine.Ledger

/-!
# The pins hold what was written last

The host and the firmware both write levels, and only the host writes modes. Whoever it was, a pin
holds what was written to it last, and neither a load nor a write to another pin changes it:
`Wired.step` says it of a step, `Wired.perform` of an operation, and `pins_hold_last_writes` of
whatever a host does. A pin that does not exist is skipped on each of the paths to it.
-/

namespace Microboard

/-! ### Reading pins after writing them -/

theorem Pin.level_write (pin : Pin) (value : UInt8) :
    ({ pin with high := value % 2 = 1 } : Pin).level = value % 2 := by
  have hlt : (value % 2).toNat < 2 := by
    rw [UInt8.toNat_mod]
    exact Nat.mod_lt _ (by decide)
  simp only [level, decide_eq_true_eq]
  split
  · rename_i hone
    exact hone.symm
  · rename_i hone
    have hne : (value % 2).toNat ≠ 1 := fun h => hone (UInt8.toNat_inj.mp h)
    apply UInt8.toNat_inj.mp
    show 0 = (value % 2).toNat
    omega

namespace Pins

def mode? (pins : Pins) (p : UInt8) : Option PinMode :=
  pins.cells[p.toNat]?.map Pin.mode

variable (pins : Pins) (p q : UInt8)

theorem level?_write (value : UInt8) :
    (pins.write p value).level? q =
      (pins.level? q).map fun level => if p = q then value % 2 else level := by
  simp only [level?, write, getElem?_modify]
  by_cases h : p = q
  · simp only [if_pos h, Option.map_map]
    congr 1
    funext pin
    exact pin.level_write value
  · simp only [if_neg h, Option.map_id']

theorem mode?_write (value : UInt8) : (pins.write p value).mode? q = pins.mode? q := by
  simp only [mode?, write, getElem?_modify]
  split
  · rw [Option.map_map]
    rfl
  · rfl

theorem level?_setMode (mode : PinMode) : (pins.setMode p mode).level? q = pins.level? q := by
  simp only [level?, setMode, getElem?_modify]
  split
  · rw [Option.map_map]
    rfl
  · rfl

theorem mode?_setMode (mode : PinMode) :
    (pins.setMode p mode).mode? q =
      (pins.mode? q).map fun old => if p = q then mode else old := by
  simp only [mode?, setMode, getElem?_modify]
  by_cases h : p = q
  · simp only [if_pos h, Option.map_map]
    rfl
  · simp only [if_neg h, Option.map_id']

variable {pins p}

theorem modify_of_le (h : pinCount ≤ p.toNat) (f : Pin → Pin) : pins.modify p f = pins := by
  rw [modify, dif_neg (Nat.not_lt.mpr h)]

theorem level?_of_le (h : pinCount ≤ p.toNat) : pins.level? p = none := by
  rw [level?, Vector.getElem?_eq_none h]
  rfl

end Pins

/-! ### Last writes -/

def lastTo {α : Type} (p : UInt8) (writes : List (UInt8 × α)) : Option α :=
  (writes.filterMap fun write => if write.1 = p then some write.2 else none).getLast?

theorem lastTo_append {α : Type} (p : UInt8) (writes more : List (UInt8 × α)) :
    lastTo p (writes ++ more) = (lastTo p more).or (lastTo p writes) := by
  rw [lastTo, List.filterMap_append, List.getLast?_append]
  rfl

theorem lastTo_singleton {α : Type} (p q : UInt8) (value : α) :
    lastTo q [(p, value)] = if p = q then some value else none := by
  by_cases h : p = q
  · simp [lastTo, h]
  · simp [lastTo, h]

namespace Machine

/-- The pin and the value of it that the next step of the machine writes; nothing if it executes no
    instruction that writes to a pin. -/
def stored? (m : Machine) : Option (UInt8 × UInt8) :=
  match m.step.executed? with
  | some (.storePin r p) => some (p, m.registers.get r)
  | _ => none

/-- The values that an operation writes to pins, be it by itself or in its steps. -/
def levelsOf (m : Machine) : Operation → List (UInt8 × UInt8)
  | .setLevel p value => [(p, value)]
  | op => (m.frontsOf op).filterMap stored?

def levelsOfAll (m : Machine) : List Operation → List (UInt8 × UInt8)
  | [] => []
  | op :: ops => m.levelsOf op ++ (m.perform op).machine.levelsOfAll ops

/-- The modes that an operation chooses for pins. -/
def modesOf : Operation → List (UInt8 × PinMode)
  | .setMode p mode => [(p, mode)]
  | _ => []

/-- From `m` to `n` each pin that exists has got the low bit of the last of these values written to
    it, and the last of these modes, and has kept what was not written. -/
structure Wired (m : Machine) (levels : List (UInt8 × UInt8)) (modes : List (UInt8 × PinMode))
    (n : Machine) : Prop where
  level_eq : ∀ p, n.pins.level? p =
    (m.pins.level? p).map fun level => ((lastTo p levels).map (· % 2)).getD level
  mode_eq : ∀ p, n.pins.mode? p =
    (m.pins.mode? p).map fun mode => (lastTo p modes).getD mode

/-- Only the instruction that stores to a pin writes to one. -/
theorem execute_pins (i : Instruction) (m : Machine) :
    (∃ r p, i = .storePin r p ∧ (m.execute i).1.pins = m.pins.write p (m.registers.get r)) ∨
      ((∀ r p, i ≠ .storePin r p) ∧ (m.execute i).1.pins = m.pins) := by
  cases i with
  | storePin r p => exact Or.inl ⟨r, p, rfl, rfl⟩
  | loadPin r p =>
    right
    refine ⟨fun _ _ h => Instruction.noConfusion h, ?_⟩
    simp only [execute]
    split
    · rfl
    · rfl
  | _ => exact Or.inr ⟨fun _ _ h => Instruction.noConfusion h, rfl⟩

theorem stored?_of_ne {m : Machine} {i : Instruction} (h : m.step.executed? = some i)
    (hne : ∀ r p, i ≠ .storePin r p) : m.stored? = none := by
  rw [stored?, h]
  cases i with
  | storePin r p => exact absurd rfl (hne r p)
  | _ => rfl

theorem stored?_of_none {m : Machine} (h : m.step.executed? = none) : m.stored? = none := by
  rw [stored?, h]

theorem pins_load (m : Machine) (image : Array UInt8) :
    (m.perform (.load image)).machine.pins = m.pins := by
  cases hload : m.flash.load image with
  | ok flash =>
    rw [perform_load_of_ok hload]
    rfl
  | error e => rw [perform_load_of_error hload]

namespace Wired

variable {m n o : Machine} {levels moreLevels : List (UInt8 × UInt8)}
  {modes moreModes : List (UInt8 × PinMode)}

theorem of_eq (h : n.pins = m.pins) : Wired m [] [] n := by
  constructor
  · intro p
    rw [h]
    exact Option.map_id'.symm
  · intro p
    rw [h]
    exact Option.map_id'.symm

theorem of_write {p value : UInt8} (h : n.pins = m.pins.write p value) :
    Wired m [(p, value)] [] n := by
  constructor
  · intro q
    rw [h, Pins.level?_write]
    congr 1
    funext level
    rw [lastTo_singleton]
    split
    · rfl
    · rfl
  · intro q
    rw [h, Pins.mode?_write]
    exact Option.map_id'.symm

theorem of_setMode {p : UInt8} {mode : PinMode} (h : n.pins = m.pins.setMode p mode) :
    Wired m [] [(p, mode)] n := by
  constructor
  · intro q
    rw [h, Pins.level?_setMode]
    exact Option.map_id'.symm
  · intro q
    rw [h, Pins.mode?_setMode]
    congr 1
    funext old
    rw [lastTo_singleton]
    split
    · rfl
    · rfl

theorem append (h : Wired m levels modes n) (hmore : Wired n moreLevels moreModes o) :
    Wired m (levels ++ moreLevels) (modes ++ moreModes) o := by
  constructor
  · intro p
    rw [hmore.level_eq, h.level_eq, Option.map_map, lastTo_append]
    congr 1
    funext level
    cases lastTo p moreLevels with
    | none => rfl
    | some value => rfl
  · intro p
    rw [hmore.mode_eq, h.mode_eq, Option.map_map, lastTo_append]
    congr 1
    funext mode
    cases lastTo p moreModes with
    | none => rfl
    | some mode => rfl

theorem step (m : Machine) : Wired m ([m].filterMap stored?) [] m.step.machine := by
  rcases m.step_idle_or_executes with ⟨hnone, -, _, _, _, hmachine⟩ | ⟨_, i, _, _, _, -, hs⟩
  · rw [List.filterMap_cons_none (stored?_of_none hnone), hmachine]
    exact of_eq rfl
  · have hexecuted : m.step.executed? = some i := by
      rw [hs]
      rfl
    rcases m.execute_pins i with ⟨r, p, rfl, hpins⟩ | ⟨hne, hpins⟩
    · have hstored : m.stored? = some (p, m.registers.get r) := by rw [stored?, hexecuted]
      rw [List.filterMap_cons_some hstored, hs]
      exact of_write hpins
    · rw [List.filterMap_cons_none (stored?_of_ne hexecuted hne), hs]
      exact of_eq hpins

theorem fronts (k : Nat) (m : Machine) :
    Wired m ((m.fronts k).filterMap stored?) [] (m.after k) := by
  refine fronts_relates (R := fun m fronts n => Wired m (fronts.filterMap stored?) [] n)
    (fun _ => of_eq rfl) step ?_ k m
  intro m n o fronts more h hmore
  rw [List.filterMap_append]
  exact h.append hmore

theorem run (budget : Nat) (m : Machine) :
    Wired m ((m.fronts budget).filterMap stored?) [] (m.run budget).machine := by
  rw [(run_eq budget m).1]
  exact fronts budget m

theorem perform (m : Machine) (op : Operation) :
    Wired m (m.levelsOf op) (modesOf op) (m.perform op).machine := by
  cases op with
  | load image => exact of_eq (pins_load m image)
  | step => exact step m
  | tick => exact run _ m
  | run budget => exact run budget m
  | setLevel p value => exact of_write rfl
  | setMode p mode => exact of_setMode rfl
  | _ => exact of_eq rfl

theorem performAll (ops : List Operation) (m : Machine) :
    Wired m (m.levelsOfAll ops) (ops.flatMap modesOf) (m.performAll ops) := by
  induction ops generalizing m with
  | nil => exact of_eq rfl
  | cons op ops ih =>
    rw [levelsOfAll, List.flatMap_cons, performAll_cons]
    exact (perform m op).append (ih (m.perform op).machine)

end Wired

theorem pins_new (settings : Settings) {p : UInt8} (h : p.toNat < pinCount) :
    (Machine.new settings).pins.level? p = some 0 ∧
      (Machine.new settings).pins.mode? p = some .input := by
  have hcell : (Machine.new settings).pins.cells[p.toNat]? = some {} := by
    show (Vector.replicate pinCount ({} : Pin))[p.toNat]? = some {}
    rw [Vector.getElem?_replicate, if_pos h]
  constructor
  · rw [Pins.level?, hcell]
    rfl
  · rw [Pins.mode?, hcell]
    rfl

/-! ### Pins that do not exist -/

theorem perform_of_le {p : UInt8} (hp : pinCount ≤ p.toNat) (m : Machine) :
    (∀ value, m.perform (.setLevel p value) = ⟨m, .accepted false, []⟩) ∧
      ∀ mode, m.perform (.setMode p mode) = ⟨m, .accepted false, []⟩ := by
  have hhas : Pins.has p = false := decide_eq_false (Nat.not_lt.mpr hp)
  constructor
  · intro value
    simp only [perform, Pins.write, Pins.modify_of_le hp, hhas]
  · intro mode
    simp only [perform, Pins.setMode, Pins.modify_of_le hp, hhas]

/-- A record that stores to a pin or loads one is executed, whatever the pin. -/
theorem executed_of_pin {m : Machine} {offset : Nat} {i : Instruction} {r p length : UInt8}
    (hi : i = .storePin r p ∨ i = .loadPin r p) (hr : r.toNat < registerCount)
    (hlive : m.live? = some offset) (hdelay : m.delay = 0)
    (hopcode : m.flash.read offset = i.opcode.byte)
    (hlength : m.flash.read? (offset + 1) = some length)
    (hoperands : [r, p] <+: m.flash.window (offset + Opcode.headerLength) length.toNat) :
    m.step.outcome = .ok (.executed m.pc i false) := by
  have hshape : i.registers = [r] ∧ i.operands = [r, p] ∧ i.destination? m.flag = none := by
    rcases hi with rfl | rfl
    · exact ⟨rfl, rfl, rfl⟩
    · exact ⟨rfl, rfl, rfl⟩
  obtain ⟨hregisters, hpair, hdestination⟩ := hshape
  have haddressable : i.Addressable := by
    intro s hs
    rw [hregisters, List.mem_singleton] at hs
    rw [hs]
    exact hr
  rw [← hpair] at hoperands
  rw [step_of_operands hlive hdelay haddressable hopcode hlength hoperands, retire_outcome,
    hdestination]
  rfl

theorem pins_of_storePin {m : Machine} {pc : UInt32} {r p : UInt8} {jumped : Bool}
    (h : m.step.outcome = .ok (.executed pc (.storePin r p) jumped)) (hp : pinCount ≤ p.toNat) :
    m.step.machine.pins = m.pins := by
  obtain ⟨_, length, -, -, hstep, -, -⟩ := retire_of_executed h
  obtain ⟨_, _, hr⟩ := m.retire_eq (.storePin r p) length
  rw [hstep, hr]
  show m.pins.write p (m.registers.get r) = m.pins
  exact Pins.modify_of_le hp _

/-- A register that a pin is loaded into exists, and so it holds the level of the pin. -/
theorem registers_of_loadPin {m : Machine} {pc : UInt32} {r p : UInt8} {jumped : Bool}
    (h : m.step.outcome = .ok (.executed pc (.loadPin r p) jumped)) :
    (∀ level, m.pins.level? p = some level →
      m.step.machine.registers.get r = level ∧
        ∀ s, s ≠ r → m.step.machine.registers.get s = m.registers.get s) ∧
      (pinCount ≤ p.toNat → m.step.machine.registers = m.registers) := by
  obtain ⟨_, length, -, hrecord, hstep, -, -⟩ := retire_of_executed h
  obtain ⟨_, _, hr⟩ := m.retire_eq (.loadPin r p) length
  obtain ⟨-, hdecode⟩ := Flash.record_eq_ok hrecord
  have hlt : r.toNat < registerCount :=
    Instruction.addressable_of_decode hdecode r List.mem_cons_self
  rw [hstep, hr]
  constructor
  · intro level hlevel
    simp only [execute, hlevel]
    refine ⟨?_, ?_⟩
    · rw [Registers.get_set hlt, if_pos rfl]
    · intro s hs
      exact Registers.get_set_of_ne hs _ _
  · intro hp
    simp only [execute, Pins.level?_of_le hp]

/-- Whatever a host has done to a machine, also in the middle of a batch: the level of a pin is the
    low bit of the value that was written to it last, by the host or by an executed instruction, and
    zero if there is none; its mode is the one chosen last, and input if there is none. A write to a
    pin that does not exist changes nothing and is no fault, be it by the host or by an instruction,
    and a load of an image keeps the pins. An instruction that loads a pin puts exactly that level
    into its register, and leaves the registers as they are if the pin does not exist. -/
theorem pins_hold_last_writes (settings : Settings) (ops : List Operation) (k : Nat) :
    let start := Machine.new settings
    let before := start.performAll ops
    let m := before.after k
    let levels := start.levelsOfAll ops ++ (before.fronts k).filterMap stored?
    let modes := ops.flatMap modesOf
    let level := fun p => (lastTo p levels).getD 0 % 2
    (∀ p : UInt8, p.toNat < pinCount →
      m.pins.level? p = some (level p) ∧
        m.pins.mode? p = some ((lastTo p modes).getD .input)) ∧
      (∀ p : UInt8, pinCount ≤ p.toNat →
        (∀ value, m.perform (.setLevel p value) = ⟨m, .accepted false, []⟩) ∧
          ∀ mode, m.perform (.setMode p mode) = ⟨m, .accepted false, []⟩) ∧
      (∀ image, (m.perform (.load image)).machine.pins = m.pins) ∧
      (∀ offset i r p length, i = .storePin r p ∨ i = .loadPin r p → r.toNat < registerCount →
        m.live? = some offset → m.delay = 0 → m.flash.read offset = i.opcode.byte →
        m.flash.read? (offset + 1) = some length →
        [r, p] <+: m.flash.window (offset + Opcode.headerLength) length.toNat →
        m.step.outcome = .ok (.executed m.pc i false)) ∧
      (∀ pc r p jumped, m.step.outcome = .ok (.executed pc (.storePin r p) jumped) →
        pinCount ≤ p.toNat → m.step.machine.pins = m.pins) ∧
      ∀ pc r p jumped, m.step.outcome = .ok (.executed pc (.loadPin r p) jumped) →
        (p.toNat < pinCount → m.step.machine.registers.get r = level p ∧
          ∀ s, s ≠ r → m.step.machine.registers.get s = m.registers.get s) ∧
        (pinCount ≤ p.toNat → m.step.machine.registers = m.registers) := by
  intro start before m levels modes level
  have hwired : Wired start levels modes m := by
    have h := (Wired.performAll ops start).append (Wired.fronts k before)
    rwa [List.append_nil] at h
  have hpin : ∀ p : UInt8, p.toNat < pinCount →
      m.pins.level? p = some (level p) ∧ m.pins.mode? p = some ((lastTo p modes).getD .input) := by
    intro p hp
    obtain ⟨hlevel, hmode⟩ := pins_new settings hp
    rw [hwired.level_eq, hwired.mode_eq, hlevel, hmode]
    refine ⟨?_, rfl⟩
    simp only [level]
    cases lastTo p levels with
    | none => rfl
    | some value => rfl
  refine ⟨hpin, ?_, ?_, ?_, ?_, ?_⟩
  · intro p hp
    exact perform_of_le hp m
  · intro image
    exact pins_load m image
  · intro offset i r p length
    exact executed_of_pin
  · intro pc r p jumped h
    exact pins_of_storePin h
  · intro pc r p jumped h
    obtain ⟨hloaded, hkept⟩ := registers_of_loadPin h
    refine ⟨?_, hkept⟩
    intro hp
    obtain ⟨hlevel, -⟩ := hpin p hp
    exact hloaded _ hlevel

end Machine

end Microboard
