import Microboard.Proofs.Machine.Cycles
import Microboard.Proofs.Machine.Listed
import Microboard.Proofs.Machine.Reload

/-!
# Surplus bytes have no influence

The length byte of a record may count more bytes than its instruction has operands. The machine
reads the operands that the instruction needs and skips the others, so two machines, one with padded
records and one with the canonical ones, do the same in every step, each at its own offset:
`Abreast` is kept by a cycle of a delay (`Abreast.step_delay`) and by a record
(`Abreast.step_record`), and ends only with the code. `surplus_unobservable` is the whole run.
-/

namespace Microboard

open Instruction

/-- An instruction that does not jump sends control nowhere else. -/
theorem Instruction.destination?_of_target? {i : Instruction} (h : i.target? = none)
    (flag : Ordering) : i.destination? flag = none := by
  cases i with
  | jump condition target => cases h
  | _ => rfl

/-! ### Padded records -/

/-- An instruction and the surplus bytes behind its operands, as many as a length byte can count. -/
structure Padded where
  instruction : Instruction
  surplus : List UInt8
  length_le : instruction.opcode.operandSize + surplus.length ≤ 255

namespace Padded

/-- All that the length byte counts. -/
def payload (r : Padded) : List UInt8 :=
  r.instruction.operands ++ r.surplus

def length (r : Padded) : UInt8 :=
  UInt8.ofNat r.payload.length

def encode (r : Padded) : List UInt8 :=
  r.instruction.opcode.byte :: r.length :: r.payload

def bytes (rs : List Padded) : List UInt8 :=
  rs.flatMap encode

theorem length_payload (r : Padded) :
    r.payload.length = r.instruction.opcode.operandSize + r.surplus.length := by
  rw [payload, List.length_append, length_operands]

theorem toNat_length (r : Padded) : r.length.toNat = r.payload.length := by
  have hle := r.length_le
  rw [← length_payload] at hle
  rw [length, UInt8.toNat_ofNat']
  omega

theorem length_encode (r : Padded) :
    r.encode.length = Opcode.headerLength + r.length.toNat := by
  rw [toNat_length, encode, List.length_cons, List.length_cons, Opcode.headerLength]
  omega

theorem bytes_cons (r : Padded) (rs : List Padded) : bytes (r :: rs) = r.encode ++ bytes rs := rfl

theorem bytes_append (rs more : List Padded) : bytes (rs ++ more) = bytes rs ++ bytes more :=
  List.flatMap_append

/-- Without the surplus bytes the records are no longer. -/
theorem size_le (rs : List Padded) : size (rs.map instruction) ≤ (bytes rs).length := by
  induction rs with
  | nil => exact Nat.le_refl 0
  | cons r rs ih =>
    rw [List.map_cons, size_cons, bytes_cons, List.length_append, length_encode, toNat_length,
      length_payload, Opcode.recordLength]
    omega

/-- Where a padded record stands, flash has its instruction in front of the surplus bytes. -/
theorem stands {flash : Flash} {before behind : List Padded} {r : Padded}
    (h : flash.Carries (bytes (before ++ r :: behind))) :
    let offset := (bytes before).length
    offset < flashCapacity ∧ flash.read offset = r.instruction.opcode.byte ∧
      flash.read? (offset + 1) = some r.length ∧
      r.instruction.operands <+:
        flash.window (offset + Opcode.headerLength) r.length.toNat := by
  intro offset
  have hbytes : bytes (before ++ r :: behind) =
      bytes before ++ (r.instruction.opcode.byte :: r.length :: (r.payload ++ bytes behind)) := by
    rw [bytes_append, bytes_cons, encode]
    rfl
  have hheader : Listing.Header (bytes (before ++ r :: behind)) offset r.instruction.opcode.byte
      r.length := by
    constructor
    · rw [hbytes, List.getElem?_append_right (Nat.le_refl offset), Nat.sub_self]
      rfl
    · rw [hbytes, List.getElem?_append_right (Nat.le_add_right offset 1), Nat.add_sub_cancel_left]
      rfl
  have hoperands : Listing.operandsAt (bytes (before ++ r :: behind)) offset r.length =
      r.instruction.operands ++ r.surplus := by
    rw [Listing.operandsAt, hbytes, List.drop_length_add_append, toNat_length]
    exact List.take_left' rfl
  obtain ⟨hlt, hopcode, hlength⟩ := h.read_header hheader
  refine ⟨Nat.lt_of_succ_lt hlt, hopcode, hlength, ?_⟩
  have hprefix := h.operandsAt_prefix offset r.length
  rw [hoperands] at hprefix
  exact (List.prefix_append _ _).trans hprefix

end Padded

/-! ### Steps that do the same -/

/-- The steps execute the same instruction or pass the same cycle of a delay, if any, and give the
    same events. -/
structure Step.Same (s t : Step) : Prop where
  events_eq : t.events = s.events
  executed?_eq : t.executed? = s.executed?
  remaining?_eq : t.remaining? = s.remaining?

namespace Machine

/-- What instructions read and write is the same in both machines. -/
structure Alike (m n : Machine) : Prop where
  registers_eq : n.registers = m.registers
  flag_eq : n.flag = m.flag
  pins_eq : n.pins = m.pins
  serial_eq : n.serial = m.serial
  spi_eq : n.spi = m.spi
  panel_eq : n.panel = m.panel
  delay_eq : n.delay = m.delay
  counter_eq : n.counter = m.counter
  sample_eq : ∀ k, n.adc.sample (n.adc.drawn + k) = m.adc.sample (m.adc.drawn + k)

variable {m n : Machine}

theorem Alike.execute (h : m.Alike n) (i : Instruction) :
    (m.execute i).1.Alike (n.execute i).1 ∧ (n.execute i).2 = (m.execute i).2 := by
  obtain ⟨hregisters, hflag, hpins, hserial, hspi, hpanel, hdelay, hcounter, hsample⟩ := h
  cases i with
  | loadPin r p =>
    simp only [Machine.execute, hpins]
    cases m.pins.level? p with
    | none =>
      exact ⟨⟨hregisters, hflag, hpins, hserial, hspi, hpanel, hdelay, hcounter, hsample⟩, rfl⟩
    | some level =>
      exact ⟨⟨by rw [hregisters], hflag, rfl, hserial, hspi, hpanel, hdelay, hcounter, hsample⟩,
        rfl⟩
  | readAdc r =>
    -- Each machine draws the next sample of its own input.
    have hnext : n.adc.next = m.adc.next := congrArg AnalogInput.reading (hsample 0)
    have hrest : ∀ k, n.adc.sample (n.adc.drawn + 1 + k) = m.adc.sample (m.adc.drawn + 1 + k) := by
      intro k
      rw [Nat.add_assoc, Nat.add_assoc]
      exact hsample (1 + k)
    exact ⟨⟨by simp only [Machine.execute, hregisters, hnext], hflag, hpins, hserial, hspi, hpanel,
      hdelay, hcounter, hrest⟩, rfl⟩
  | _ =>
    simp only [Machine.execute, hregisters, hpins, hserial, hspi, hpanel, and_true]
    exact ⟨by simp only [hregisters], by simp only [hflag], by simp only [hpins],
      by simp only [hserial], by simp only [hspi], by simp only [hpanel], by simp only [hdelay],
      hcounter, hsample⟩

/-- Records of the same instruction do the same, whatever their length bytes say. -/
theorem Alike.retire (h : m.Alike n) (i : Instruction) (length other : UInt8) :
    (m.retire i length).Same (n.retire i other) ∧
      (m.retire i length).machine.Alike (n.retire i other).machine := by
  obtain ⟨⟨hregisters, hflag, hpins, hserial, hspi, hpanel, hdelay, -, hsample⟩, hevents⟩ :=
    h.execute i
  obtain ⟨_, _, hm⟩ := m.retire_eq i length
  obtain ⟨_, _, hn⟩ := n.retire_eq i other
  rw [hm, hn]
  exact ⟨⟨hevents, rfl, rfl⟩, hregisters, hflag, hpins, hserial, hspi, hpanel, hdelay,
    congrArg (· + 1) h.counter_eq, hsample⟩

theorem retire_frame (i : Instruction) (length : UInt8) (m : Machine) :
    (m.retire i length).machine.flash = m.flash ∧
      (m.retire i length).machine.running = m.running ∧
      (m.retire i length).machine.counter = m.counter + 1 ∧
      (m.retire i length).machine.delay = (m.execute i).1.delay := by
  obtain ⟨_, _, hr⟩ := m.retire_eq i length
  obtain ⟨-, hflash, -, hrunning, -, -, -⟩ := m.execute_frame i
  rw [hr]
  exact ⟨hflash, hrunning, rfl, rfl⟩

/-! ### Abreast -/

/-- One machine has the padded records in flash and the other one the canonical records. Both are
    on, do not differ otherwise, and have executed the same records: each is at the start of what is
    left in its own image. -/
structure Abreast (before behind : List Padded) (m n : Machine) : Prop where
  carries : m.flash.Carries (Padded.bytes (before ++ behind))
  holds : n.flash.Holds ((before ++ behind).map Padded.instruction)
  padded_running : m.running = true
  running : n.running = true
  padded_pc : m.pc = addressOf (Padded.bytes before).length
  pc : n.pc = addressOf (size (before.map Padded.instruction))
  counter_eq : m.counter = UInt64.ofNat before.length
  alike : m.Alike n

namespace Abreast

variable {before behind : List Padded} {r : Padded}

theorem size_lt (hlt : (Padded.bytes before).length < flashCapacity) :
    size (before.map Padded.instruction) < flashCapacity :=
  Nat.lt_of_le_of_lt (Padded.size_le before) hlt

theorem step_delay (h : Abreast before behind m n) (hdelay : m.delay ≠ 0)
    (hlt : (Padded.bytes before).length < flashCapacity) :
    m.step.Works ∧ m.step.Same n.step ∧ Abreast before behind m.step.machine n.step.machine ∧
      m.step.machine.delay.toNat + 1 = m.delay.toNat := by
  have hm := step_of_delay (live_of_running h.padded_running h.padded_pc hlt) hdelay
  have hn := step_of_delay (live_of_running h.running h.pc (size_lt hlt))
    (by rw [h.alike.delay_eq]; exact hdelay)
  have halike := h.alike
  rw [hm, hn]
  refine ⟨Or.inr rfl, ⟨rfl, rfl, ?_⟩, ?_, toNat_sub_one hdelay⟩
  · show some (n.delay - 1) = some (m.delay - 1)
    rw [halike.delay_eq]
  · exact { h with alike := { halike with delay_eq := congrArg (· - 1) halike.delay_eq } }

theorem step_record (h : Abreast before (r :: behind) m n) (hdelay : m.delay = 0)
    (hr : r.instruction.Addressable) (hjump : r.instruction.target? = none) :
    m.step.Works ∧ m.step.Same n.step ∧
      Abreast (before ++ [r]) behind m.step.machine n.step.machine ∧
      m.step.machine.delay.toNat = r.instruction.cycles := by
  obtain ⟨hlt, hopcode, hlength, hoperands⟩ := Padded.stands h.carries
  have hm : m.step = m.retire r.instruction r.length :=
    step_of_operands (live_of_running h.padded_running h.padded_pc hlt) hdelay hr hopcode hlength
      hoperands
  have hholds := h.holds
  rw [List.map_append, List.map_cons] at hholds
  have hn : n.step =
      n.retire r.instruction (UInt8.ofNat r.instruction.opcode.operandSize) :=
    step_of_ok (live_of_running h.running h.pc (size_lt hlt))
      (by rw [h.alike.delay_eq]; exact hdelay) (hholds.record_of_append hr)
  obtain ⟨hsame, halike⟩ := h.alike.retire r.instruction r.length
    (UInt8.ofNat r.instruction.opcode.operandSize)
  obtain ⟨hflash, hrunning, hcounter, hset⟩ := m.retire_frame r.instruction r.length
  obtain ⟨hflash', hrunning', -, -⟩ := n.retire_frame r.instruction
    (UInt8.ofNat r.instruction.opcode.operandSize)
  have hdestination := Instruction.destination?_of_target? hjump
  have hrest : before ++ [r] ++ behind = before ++ r :: behind :=
    (List.append_cons before r behind).symm
  rw [hm, hn]
  refine ⟨Or.inl (by rw [Step.executed?, retire_outcome]; rfl), hsame, ?_, ?_⟩
  · constructor
    · rw [hrest, hflash]
      exact h.carries
    · rw [hrest, hflash']
      exact h.holds
    · exact hrunning.trans h.padded_running
    · exact hrunning'.trans h.running
    · rw [pc_retire_of_none h.padded_pc (hdestination m.flag), Listing.behind, Nat.add_assoc,
        ← Padded.length_encode, Padded.bytes_append, List.length_append]
      simp only [Padded.bytes, List.flatMap_singleton]
    · rw [pc_retire_of_none h.pc (hdestination n.flag), Listing.behind, toNat_operandSize,
        Nat.add_assoc, ← Opcode.recordLength, List.map_append, size_append]
      rfl
    · rw [hcounter, h.counter_eq, List.length_append, UInt64.ofNat_add]
      rfl
    · exact halike
  · rw [hset]
    exact delay_execute hdelay r.instruction

/-- Where code ends, no step works: what follows is no record, or there is no flash left. -/
theorem idle_behind {image : List UInt8} (h : m.flash.Carries image)
    (hpc : m.pc = addressOf image.length) (hready : image.length < flashCapacity → m.delay = 0) :
    ¬m.step.Works := by
  have hoffset : m.offset? = some image.length := by
    rw [Machine.offset?, hpc, offset?_addressOf h.fits]
  rcases m.step_cases with ⟨-, hs⟩ | ⟨hlive, hdelay, -⟩ | ⟨_, _, -, -, -, hs⟩ |
    ⟨offset, i, length, hlive, -, hrecord, -⟩
  · rw [hs]
    exact Step.not_works rfl rfl
  · obtain ⟨offset, hsome⟩ := Option.isSome_iff_exists.mp hlive
    obtain ⟨-, hhere, hlt⟩ := live?_eq_some_iff.mp hsome
    cases hhere.symm.trans hoffset
    exact absurd (hready hlt) hdelay
  · rw [hs]
    exact Step.not_works rfl rfl
  · obtain ⟨-, hhere, -⟩ := live?_eq_some_iff.mp hlive
    cases hhere.symm.trans hoffset
    rw [h.record_length] at hrecord
    cases hrecord

/-- The cycles that are left to pass, and the steps that the records left take. -/
def stepsLeft (m : Machine) (behind : List Padded) : Nat :=
  m.delay.toNat + duration (behind.map Padded.instruction)

/-- Both machines take another step abreast, or the one with the padded records has come to the end
    of them. -/
theorem progress (h : Abreast before behind m n)
    (hcode : ∀ r ∈ behind, r.instruction.Addressable ∧ r.instruction.target? = none) :
    (behind = [] ∧ ¬m.step.Works) ∨
      (m.step.Works ∧ m.step.Same n.step ∧ ∃ passed rest, behind = passed ++ rest ∧
        Abreast (before ++ passed) rest m.step.machine n.step.machine ∧
        stepsLeft m.step.machine rest + 1 = stepsLeft m behind) := by
  have hend : behind = [] →
      ((Padded.bytes before).length < flashCapacity → m.delay = 0) → ¬m.step.Works := by
    intro hnil hready
    have hcarries := h.carries
    rw [hnil, List.append_nil] at hcarries
    exact idle_behind hcarries h.padded_pc hready
  by_cases hdelay : m.delay = 0
  · cases behind with
    | nil => exact Or.inl ⟨rfl, hend rfl fun _ => hdelay⟩
    | cons r behind =>
      right
      obtain ⟨hr, hjump⟩ := hcode r List.mem_cons_self
      obtain ⟨hworks, hsame, hnext, hset⟩ := h.step_record hdelay hr hjump
      refine ⟨hworks, hsame, [r], behind, rfl, hnext, ?_⟩
      rw [stepsLeft, stepsLeft, hset, hdelay, List.map_cons, duration_cons, UInt16.toNat_zero]
      omega
  · by_cases hlt : (Padded.bytes before).length < flashCapacity
    · right
      obtain ⟨hworks, hsame, hnext, hpassed⟩ := h.step_delay hdelay hlt
      refine ⟨hworks, hsame, [], behind, rfl, ?_, ?_⟩
      · rw [List.append_nil]
        exact hnext
      · rw [stepsLeft, stepsLeft]
        omega
    · -- The records have filled flash, so there are none left.
      left
      have hnil : behind = [] := by
        cases behind with
        | nil => rfl
        | cons r behind =>
          obtain ⟨hinside, -⟩ := Padded.stands h.carries
          exact absurd hinside hlt
      exact ⟨hnil, hend hnil fun hinside => absurd hinside hlt⟩

end Abreast

/-! ### Whole runs -/

/-- For so many steps both machines do something and do the same, and in front of each of them and
    behind the last one they have given the same events and are abreast. -/
structure Together (rs : List Padded) (m n : Machine) (finish : Nat) : Prop where
  emitted_eq : ∀ k ≤ finish, n.emitted k = m.emitted k
  abreast : ∀ k ≤ finish, ∃ before behind, rs = before ++ behind ∧
    Abreast before behind (m.after k) (n.after k)
  same : ∀ k < finish, (m.after k).step.Works ∧ (m.after k).step.Same (n.after k).step

namespace Together

variable {before behind rs : List Padded} {finish : Nat}

theorem zero (h : Abreast before behind m n) : Together (before ++ behind) m n 0 := by
  refine ⟨?_, ?_, ?_⟩
  · intro k hk
    rw [Nat.le_zero.mp hk]
    rfl
  · intro k hk
    rw [Nat.le_zero.mp hk]
    exact ⟨before, behind, rfl, h⟩
  · intro k hk
    exact absurd hk (Nat.not_lt_zero k)

theorem of_step (h : Abreast before behind m n) (hworks : m.step.Works)
    (hsame : m.step.Same n.step)
    (hrest : Together (before ++ behind) m.step.machine n.step.machine finish) :
    Together (before ++ behind) m n (finish + 1) := by
  refine ⟨?_, ?_, ?_⟩
  · intro k hk
    cases k with
    | zero => rfl
    | succ k =>
      rw [emitted, emitted, hsame.events_eq, hrest.emitted_eq k (Nat.le_of_succ_le_succ hk)]
  · intro k hk
    cases k with
    | zero => exact ⟨before, behind, rfl, h⟩
    | succ k => exact hrest.abreast k (Nat.le_of_succ_le_succ hk)
  · intro k hk
    cases k with
    | zero => exact ⟨hworks, hsame⟩
    | succ k => exact hrest.same k (Nat.lt_of_succ_lt_succ hk)

end Together

/-- Machines that are abreast stay so until the one with the padded records is through with them. -/
theorem Abreast.together {before behind : List Padded} (h : Abreast before behind m n)
    (hcode : ∀ r ∈ behind, r.instruction.Addressable ∧ r.instruction.target? = none) :
    ∃ finish, Together (before ++ behind) m n finish ∧
      Abreast (before ++ behind) [] (m.after finish) (n.after finish) ∧
      ¬(m.after finish).step.Works ∧
      finish + (m.after finish).delay.toNat = Abreast.stepsLeft m behind := by
  -- The induction is on the steps that are left; each step that works leaves one less.
  generalize hleft : Abreast.stepsLeft m behind = count
  induction count using Nat.strongRecOn generalizing before behind m n with
  | ind count ih =>
    rcases h.progress hcode with ⟨rfl, hidle⟩ |
      ⟨hworks, hsame, passed, rest, rfl, hnext, hfewer⟩
    · refine ⟨0, Together.zero h, ?_, hidle, ?_⟩
      · rw [List.append_nil]
        exact h
      · rw [← hleft, Nat.zero_add]
        exact (Nat.add_zero _).symm
    · obtain ⟨finish, htogether, hend, hidle, hcount⟩ :=
        ih _ (by omega) hnext (fun r hr => hcode r (List.mem_append_right passed hr)) rfl
      rw [List.append_assoc] at htogether hend
      refine ⟨finish + 1, Together.of_step h hworks hsame htogether, hend, hidle, ?_⟩
      show finish + 1 + (m.step.machine.after finish).delay.toNat = count
      omega

/-- Surplus bytes have no influence on a run. Take a list of instructions with registers that exist
    and without jumps, and any surplus bytes behind the operands of each of them, so long as flash
    has room for the records with them. A machine that loads the padded records and another one that
    loads the canonical records, with the same settings, the same pins and the same samples to come,
    take the same steps when they are switched on: after each of them they have given the same
    events, do not differ in anything that instructions read or write, and stand at the same
    instruction, each in its own image. They do so until the padded records are through, and then
    all are executed. That takes as many steps as there are instructions and cycles of delays, and
    the canonical records are through as well; only if the padded records fill flash to its last
    byte, the cycles of a delay at their very end do not pass, for the machine halts there. -/
theorem surplus_unobservable {rs : List Padded}
    (hcode : ∀ r ∈ rs, r.instruction.Addressable ∧ r.instruction.target? = none)
    (hfits : (Padded.bytes rs).length ≤ flashCapacity) {settings : Settings} {host other : Machine}
    (hhost : host.BuiltWith settings) (hother : other.BuiltWith settings)
    (hpins : other.pins = host.pins)
    (hsample : ∀ k, other.adc.sample (other.adc.drawn + k) = host.adc.sample (host.adc.drawn + k)) :
    let code := rs.map Padded.instruction
    ∃ padded bare, host.load (Padded.bytes rs).toArray = .ok padded ∧
      other.load (bytes code).toArray = .ok bare ∧
      let m := padded.start
      let n := bare.start
      ∃ finish, Together rs m n finish ∧ Abreast rs [] (m.after finish) (n.after finish) ∧
        ¬(m.after finish).step.Works ∧
        finish + (m.after finish).delay.toNat = duration code ∧
        ((Padded.bytes rs).length < flashCapacity →
          finish = duration code ∧ ¬(n.after finish).step.Works) := by
  intro code
  have hpadded : (Padded.bytes rs).toArray.size ≤ flashCapacity := by
    rw [List.size_toArray]
    exact hfits
  have hbare : (bytes code).toArray.size ≤ flashCapacity := by
    rw [List.size_toArray, length_bytes]
    exact Nat.le_trans (Padded.size_le rs) hfits
  obtain ⟨flash, hload, hcarries⟩ := Flash.carries_of_load hpadded host.flash
  have himage : (bytes code).toArray.toList = bytes code := rfl
  obtain ⟨flash', hload', hholds⟩ := Flash.holds_of_load himage hbare other.flash
  refine ⟨host.withFlash flash, other.withFlash flash', load_eq_ok.mpr ⟨flash, hload, rfl⟩,
    load_eq_ok.mpr ⟨flash', hload', rfl⟩, ?_⟩
  intro m n
  have hpanel : n.panel = m.panel := by
    show (other.withFlash flash').panel = (host.withFlash flash).panel
    rw [hother.withFlash_eq, hhost.withFlash_eq]
    rfl
  have hstart : Abreast [] rs m n :=
    ⟨hcarries, hholds, rfl, rfl, rfl, rfl, rfl,
      ⟨rfl, rfl, hpins, rfl, rfl, hpanel, rfl, rfl, hsample⟩⟩
  obtain ⟨finish, htogether, hend, hidle, hcount⟩ := hstart.together hcode
  have hduration : finish + (m.after finish).delay.toNat = duration code := by
    rw [hcount]
    exact Nat.zero_add _
  refine ⟨finish, htogether, hend, hidle, hduration, ?_⟩
  intro hlt
  have hready : (m.after finish).delay = 0 := by
    apply Decidable.byContradiction
    intro hdelay
    exact hidle (hend.step_delay hdelay hlt).1
  refine ⟨?_, ?_⟩
  · rw [hready] at hduration
    exact hduration
  · have hholds := hend.holds.carries
    have hpc := hend.pc
    rw [List.append_nil] at hholds
    rw [← length_bytes] at hpc
    exact Abreast.idle_behind hholds hpc fun _ => hend.alike.delay_eq.trans hready

/-- A load with two bytes too many, a byte for the serial line, and a delay of two cycles with a
    byte too many: five steps later both machines have executed the three instructions, and what
    they have given is the same. -/
theorem surplus_unobservable_delay :
    let rs : List Padded :=
      [⟨.loadImmediate 0 0x41, [0xEE, 0x07], by decide⟩, ⟨.serialWrite 0, [], by decide⟩,
        ⟨.delay 2, [0x01], by decide⟩]
    (∀ r ∈ rs, r.instruction.Addressable ∧ r.instruction.target? = none) ∧
      (Padded.bytes rs).length ≤ flashCapacity ∧
      ∃ padded bare, (Machine.new {}).load (Padded.bytes rs).toArray = .ok padded ∧
        (Machine.new {}).load (bytes (rs.map Padded.instruction)).toArray = .ok bare ∧
        let m := padded.start
        let n := bare.start
        n.emitted 5 = m.emitted 5 ∧ (n.after 5).registers = (m.after 5).registers ∧
          (m.after 5).executed = 3 ∧ (m.after 5).pc = addressOf 14 ∧
          (n.after 5).pc = addressOf 11 := by
  intro rs
  have hcode : ∀ r ∈ rs, r.instruction.Addressable ∧ r.instruction.target? = none := by
    have hzero : ∀ r ∈ [(0 : UInt8)], r.toNat < registerCount :=
      List.forall_mem_singleton.mpr (by decide)
    refine List.forall_mem_cons.mpr ⟨⟨hzero, rfl⟩, ?_⟩
    refine List.forall_mem_cons.mpr ⟨⟨hzero, rfl⟩, ?_⟩
    exact List.forall_mem_singleton.mpr ⟨List.forall_mem_nil _, rfl⟩
  have hfits : (Padded.bytes rs).length < flashCapacity := by
    have hlength : (Padded.bytes rs).length = 14 := rfl
    rw [hlength, flashCapacity]
    omega
  refine ⟨hcode, Nat.le_of_lt hfits, ?_⟩
  obtain ⟨padded, bare, hload, hload', finish, htogether, hend, -, -, hfinish⟩ :=
    surplus_unobservable hcode (Nat.le_of_lt hfits) (BuiltWith.new {}) (BuiltWith.new {}) rfl
      fun _ => rfl
  obtain ⟨rfl, -⟩ := hfinish hfits
  refine ⟨padded, bare, hload, hload', ?_⟩
  have hexecuted := congrArg UInt64.toNat hend.counter_eq
  exact ⟨htogether.emitted_eq 5 (Nat.le_refl 5), hend.alike.registers_eq, hexecuted,
    hend.padded_pc, hend.pc⟩

end Machine

end Microboard
