import Microboard.Proofs.Instruction.Decoding
import Microboard.Proofs.Listing
import Microboard.Proofs.Machine.Fetch

/-!
# The machine reads what is listed

A listing sees an image, and a machine that has loaded it sees flash: where the image ends, a record
of the listing is cut off, but the machine reads on into zeros. Both still find the same
instructions, because a record that is an instruction already has all the operands it needs:
`record_eq`. So a machine executes what is listed, and goes on where the listing goes on:
`listing_executed`.
-/

namespace Microboard

open Instruction Listing

namespace Flash.Carries

variable {flash : Flash} {image : List UInt8} {offset : Nat} {opcode length : UInt8}

theorem read_header (h : flash.Carries image) (hheader : Header image offset opcode length) :
    offset + 1 < flashCapacity ∧ flash.read offset = opcode ∧
      flash.read? (offset + 1) = some length := by
  have hlt : offset + 1 < image.length := by
    obtain ⟨hlt, -⟩ := List.getElem?_eq_some_iff.mp hheader.length_eq
    exact hlt
  have hfits : offset + 1 < flashCapacity := Nat.lt_of_lt_of_le hlt h.fits
  refine ⟨hfits, ?_, ?_⟩
  · rw [h.read_eq, hheader.opcode_eq, Option.getD_some]
  · rw [read?, if_pos hfits, h.read_eq, hheader.length_eq, Option.getD_some]

theorem operandsAt_prefix (h : flash.Carries image) (offset : Nat) (length : UInt8) :
    operandsAt image offset length <+:
      flash.window (offset + Opcode.headerLength) length.toNat := by
  rw [List.prefix_iff_getElem?]
  intro k hk
  have hlt : k < length.toNat ∧ offset + Opcode.headerLength + k < image.length := by
    rw [operandsAt, List.length_take, List.length_drop] at hk
    omega
  have hfits := Nat.lt_of_lt_of_le hlt.2 h.fits
  rw [window, List.getElem?_map, List.getElem?_range (by omega), Option.map_some, h.read_eq,
    List.getElem?_eq_getElem hlt.2, Option.getD_some]
  simp only [operandsAt, List.getElem_take, List.getElem_drop]

/-- Where the listing reads a record with all its operands, the machine fetches the same. -/
theorem record_eq (h : flash.Carries image) (hheader : Header image offset opcode length)
    (hwhole : ∀ code needed available, decode opcode (operandsAt image offset length) ≠
      .error (.truncated code needed available)) :
    flash.record offset =
      (decode opcode (operandsAt image offset length)).map fun i => (i, length) := by
  obtain ⟨-, hopcode, hlength⟩ := h.read_header hheader
  have hdecode := decode_of_prefix hwhole (h.operandsAt_prefix offset length)
  simp only [record, hopcode, hlength, hdecode]
  rcases decode opcode (operandsAt image offset length) with cause | i
  · rfl
  · rfl

end Flash.Carries

namespace Machine

/-- An instruction that does not jump leads behind its record, as its length byte tells. -/
theorem pc_retire_of_none {i : Instruction} {m : Machine} {offset : Nat}
    (hpc : m.pc = addressOf offset) (hdestination : i.destination? m.flag = none)
    (length : UInt8) : (m.retire i length).machine.pc = addressOf (behind offset length) := by
  simp only [retire, hdestination, hpc, addressOf_add, behind, Nat.add_assoc]

/-- A machine that has loaded an image executes what its listing lists. Wherever the listing has an
    instruction, a machine that is on, without a delay and at that offset executes this instruction;
    unless it jumps, it goes on where its record ends, and there the listing goes on: with its next
    instruction, with the record that ends it, or behind the image. Where the listing ends with an
    unknown opcode or a register that does not exist, the machine has this fault. -/
theorem listing_executed {image : Array UInt8} (hfits : image.size ≤ flashCapacity)
    (host : Machine) :
    ∃ loaded, host.load image = .ok loaded ∧
      ∀ m : Machine, m.flash = loaded.flash → m.running = true → m.delay = 0 →
        let listing := Listing.ofImage image.toList
        (∀ front offset i rest, listing.entries = front ++ (offset, i) :: rest →
          m.pc = addressOf offset →
          ∃ length, image[offset + 1]? = some length ∧
            let next := offset + Opcode.headerLength + length.toNat
            m.step.outcome =
              .ok (.executed (addressOf offset) i (i.destination? m.flag).isSome) ∧
            (i.destination? m.flag = none → m.step.machine.pc = addressOf next) ∧
            (∀ entry ∈ rest.head?, entry.1 = next) ∧
            (rest = [] → ∀ stop ∈ listing.stop, stop.1 = next) ∧
            (rest = [] → listing.stop = none → image.size ≤ next)) ∧
        (∀ offset cause, listing.stop = some (offset, cause) →
          (∀ opcode needed available, cause ≠ .truncated opcode needed available) →
          m.pc = addressOf offset →
          m.step.outcome = .error ⟨cause, addressOf offset⟩) := by
  obtain ⟨flash, hload, hcarries⟩ := Flash.carries_of_load hfits host.flash
  refine ⟨host.withFlash flash, by rw [load, hload]; rfl, ?_⟩
  intro m hflash hrunning hdelay listing
  have hholds : m.flash.Carries image.toList := by
    rw [hflash]
    exact hcarries
  have hlists : Lists image.toList 0 listing.entries listing.stop := ofImage_lists image.toList
  refine ⟨?_, ?_⟩
  · intro front offset i rest hentries hpc
    rw [hentries] at hlists
    obtain ⟨opcode, length, hheader, hdecode, hrest⟩ := hlists.rest_of_append
    obtain ⟨hlt, -, -⟩ := hholds.read_header hheader
    have hlive := live_of_running hrunning hpc (Nat.lt_of_succ_lt hlt)
    have hrecord : m.flash.record offset = .ok (i, length) := by
      rw [hholds.record_eq hheader (by rw [hdecode]; simp), hdecode]
      rfl
    have hstep := step_of_ok hlive hdelay hrecord
    obtain ⟨hnext, hstop, hend⟩ := hrest.start_eq
    have hlength : image[offset + 1]? = some length := by
      rw [← Array.getElem?_toList]
      exact hheader.length_eq
    rw [Array.length_toList] at hend
    refine ⟨length, hlength, ?_, ?_, hnext, hstop, hend⟩
    · rw [hstep, retire_outcome, hpc]
    · intro hdestination
      rw [hstep]
      exact pc_retire_of_none hpc hdestination length
  · intro offset cause hstop hwhole hpc
    rcases hlists.stop_cases hstop with ⟨opcode, -, -, hcause⟩ | ⟨opcode, length, hheader, hdecode⟩
    · -- Without a length byte the listing ends with a truncation, which is left aside here.
      exact absurd hcause (hwhole opcode 1 0)
    · obtain ⟨hlt, -, -⟩ := hholds.read_header hheader
      have hlive := live_of_running hrunning hpc (Nat.lt_of_succ_lt hlt)
      have hrecord : m.flash.record offset = .error cause := by
        rw [hholds.record_eq hheader (by rw [hdecode]; simpa using hwhole), hdecode]
        rfl
      rw [step_of_error hlive hdelay hrecord, hpc]

/-- An image with a byte too many in its first record, and an unknown opcode behind it: the machine
    skips the byte like the listing, and fails where the listing ends. -/
theorem listing_executed_surplus :
    let image : Array UInt8 := #[0x01, 0x03, 0x00, 0x2A, 0xEE, 0x42, 0x07]
    let listing := Listing.ofImage image.toList
    image.size ≤ flashCapacity ∧
      listing = ⟨[(0, .loadImmediate 0 0x2A)], some (5, .unknownOpcode 0x42)⟩ ∧
      ∃ loaded, (Machine.new {}).load image = .ok loaded ∧
        let standing := fun offset =>
          { Machine.new {} with flash := loaded.flash, running := true, pc := addressOf offset }
        (standing 0).step.outcome =
          .ok (.executed (addressOf 0) (.loadImmediate 0 0x2A) false) ∧
        (standing 0).step.machine.pc = addressOf 5 ∧
        (standing 5).step.outcome = .error ⟨.unknownOpcode 0x42, addressOf 5⟩ := by
  intro image listing
  have hfits : image.size ≤ flashCapacity := by decide
  have hlisting : listing = ⟨[(0, .loadImmediate 0 0x2A)], some (5, .unknownOpcode 0x42)⟩ := by
    decide +kernel
  refine ⟨hfits, hlisting, ?_⟩
  obtain ⟨loaded, hload, hmachine⟩ := listing_executed hfits (Machine.new {})
  refine ⟨loaded, hload, ?_⟩
  intro standing
  obtain ⟨hentry, -⟩ := hmachine (standing 0) rfl rfl rfl
  obtain ⟨-, hstop⟩ := hmachine (standing 5) rfl rfl rfl
  obtain ⟨length, hlength, houtcome, hpc, -⟩ :=
    hentry [] 0 (.loadImmediate 0 0x2A) [] (congrArg Listing.entries hlisting) rfl
  cases hlength
  refine ⟨houtcome, hpc rfl, hstop 5 _ (congrArg Listing.stop hlisting) ?_ rfl⟩
  intro opcode needed available h
  cases h

end Machine

end Microboard
