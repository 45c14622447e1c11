import Mathlib.Data.List.Chain
import Mathlib.Logic.Relation
import Microboard.Proofs.Firmware.Code
import Microboard.Proofs.Listing

/-!
# The chain of records

Each record of an image tells where the next one starts, so the records form a chain of offsets from
the first byte on: `Reaches`. A listing has exactly the instructions on this chain, in its order,
and stops exactly where the chain comes upon a record that is no instruction: `listing_exact`. If
all records are canonical, the listing determines the image.
-/

namespace Microboard.Listing

open Instruction

variable {image : List UInt8} {offset o : Nat} {length : UInt8} {i : Instruction}
  {cause : RecordError} {entries : List (Nat × Instruction)} {stop : Option (Nat × RecordError)}

/-! ### Records on the chain -/

theorem Header.drop_eq {opcode : UInt8} (h : Header image offset opcode length) :
    image.drop offset = opcode :: length :: image.drop (offset + Opcode.headerLength) := by
  obtain ⟨hlt, hopcode⟩ := List.getElem?_eq_some_iff.mp h.opcode_eq
  obtain ⟨hlt', hlength⟩ := List.getElem?_eq_some_iff.mp h.length_eq
  rw [List.drop_eq_getElem_cons hlt, List.drop_eq_getElem_cons hlt', hopcode, hlength]
  rfl

theorem Header.unique {opcode opcode' length' : UInt8} (h : Header image offset opcode length)
    (h' : Header image offset opcode' length') : opcode = opcode' ∧ length = length' :=
  ⟨Option.some.inj (h.opcode_eq.symm.trans h'.opcode_eq),
    Option.some.inj (h.length_eq.symm.trans h'.length_eq)⟩

/-- An instruction stands in an image at an offset, in a record with this length byte. -/
inductive Reads (image : List UInt8) (offset : Nat) (length : UInt8) (i : Instruction) : Prop where
  | intro {opcode : UInt8} (hheader : Header image offset opcode length)
      (hdecode : decode opcode (operandsAt image offset length) = .ok i)

/-- The record at an offset inside an image is no instruction: it has no length byte, or cannot be
    decoded. -/
inductive Fails (image : List UInt8) (offset : Nat) : RecordError → Prop where
  | headless {opcode : UInt8} (hopcode : image[offset]? = some opcode)
      (hlength : image[offset + 1]? = none) : Fails image offset (.truncated opcode 1 0)
  | bad {opcode length : UInt8} {cause : RecordError} (hheader : Header image offset opcode length)
      (hdecode : decode opcode (operandsAt image offset length) = .error cause) :
      Fails image offset cause

/-- Behind an instruction, the chain goes on where the length byte of its record tells. -/
def Follows (image : List UInt8) (offset next : Nat) : Prop :=
  ∃ length i, Reads image offset length i ∧ next = behind offset length

def Chain (image : List UInt8) : Nat → Nat → Prop :=
  Relation.ReflTransGen (Follows image)

/-- The chain that starts at the first byte of an image comes to an offset. -/
def Reaches (image : List UInt8) (offset : Nat) : Prop :=
  Chain image 0 offset

namespace Reads

theorem lt_length (h : Reads image offset length i) : offset + 1 < image.length := by
  obtain ⟨hheader, -⟩ := h
  obtain ⟨hlt, -⟩ := List.getElem?_eq_some_iff.mp hheader.length_eq
  exact hlt

theorem unique {length' : UInt8} {j : Instruction} (h : Reads image offset length i)
    (h' : Reads image offset length' j) : length = length' ∧ i = j := by
  obtain ⟨hheader, hdecode⟩ := h
  obtain ⟨hheader', hdecode'⟩ := h'
  obtain ⟨rfl, rfl⟩ := hheader.unique hheader'
  cases hdecode.symm.trans hdecode'
  exact ⟨rfl, rfl⟩

theorem not_fails (h : Reads image offset length i) : ¬ Fails image offset cause := by
  obtain ⟨hheader, hdecode⟩ := h
  intro hfails
  cases hfails with
  | headless hopcode hlength => cases hheader.length_eq.symm.trans hlength
  | bad hheader' hdecode' =>
    obtain ⟨rfl, rfl⟩ := hheader.unique hheader'
    cases hdecode.symm.trans hdecode'

end Reads

namespace Fails

theorem lt_length (h : Fails image offset cause) : offset < image.length := by
  cases h with
  | headless hopcode hlength => exact (List.getElem?_eq_some_iff.mp hopcode).1
  | bad hheader hdecode => exact (List.getElem?_eq_some_iff.mp hheader.opcode_eq).1

theorem unique {cause' : RecordError} (h : Fails image offset cause)
    (h' : Fails image offset cause') : cause = cause' := by
  cases h with
  | headless hopcode hlength =>
    cases h' with
    | headless hopcode' hlength' =>
      cases hopcode.symm.trans hopcode'
      rfl
    | bad hheader hdecode => cases hlength.symm.trans hheader.length_eq
  | bad hheader hdecode =>
    cases h' with
    | headless hopcode hlength => cases hlength.symm.trans hheader.length_eq
    | bad hheader' hdecode' =>
      obtain ⟨rfl, rfl⟩ := hheader.unique hheader'
      cases hdecode.symm.trans hdecode'
      rfl

end Fails

/-- What a chain ends with: an offset behind the image, or a record that is no instruction. -/
inductive Ends (image : List UInt8) (offset : Nat) : Option (Nat × RecordError) → Prop where
  | past (hend : image.length ≤ offset) : Ends image offset none
  | fails {cause : RecordError} (hfails : Fails image offset cause) :
      Ends image offset (some (offset, cause))

theorem Reads.not_ends (h : Reads image offset length i) : ¬ Ends image offset stop := by
  intro hends
  cases hends with
  | past hend => exact absurd h.lt_length (by omega)
  | fails hfails => exact h.not_fails hfails

theorem Ends.unique {other : Option (Nat × RecordError)} (h : Ends image offset stop)
    (h' : Ends image offset other) : stop = other := by
  cases h with
  | past hend =>
    cases h' with
    | past => rfl
    | fails hfails => exact absurd hfails.lt_length (Nat.not_lt.mpr hend)
  | fails hfails =>
    cases h' with
    | past hend => exact absurd hfails.lt_length (Nat.not_lt.mpr hend)
    | fails hfails' => rw [hfails.unique hfails']

/-- The chain cannot fork. -/
theorem follows_unique : Relator.RightUnique (Follows image) := by
  rintro offset next next' ⟨length, i, hreads, rfl⟩ ⟨length', j, hreads', rfl⟩
  rw [(hreads.unique hreads').1]

/-! ### Following the chain -/

theorem lt_of_follows {next : Nat} (h : Follows image offset next) : offset < next := by
  obtain ⟨length, i, -, rfl⟩ := h
  simp only [behind, Opcode.headerLength]
  omega

theorem le_of_chain {next : Nat} (h : Chain image offset next) : offset ≤ next := by
  induction h with
  | refl => exact Nat.le_refl _
  | tail _ hnext ih => exact Nat.le_of_lt (Nat.lt_of_le_of_lt ih (lt_of_follows hnext))

theorem Ends.eq_of_chain {next : Nat} (h : Ends image offset stop)
    (hchain : Chain image offset next) : next = offset := by
  rcases hchain.cases_head with heq | ⟨_, ⟨length, i, hreads, -⟩, -⟩
  · exact heq.symm
  · exact absurd h hreads.not_ends

theorem Ends.not_reads_of_chain (h : Ends image offset stop) :
    ¬ (Chain image offset o ∧ ∃ length, Reads image o length i) := by
  rintro ⟨hchain, length, hreads⟩
  rw [h.eq_of_chain hchain] at hreads
  exact hreads.not_ends h

/-- Everything on a chain leads to its end. -/
theorem Ends.chain {last : Nat} (h : Ends image last stop) (hlast : Chain image offset last)
    (ho : Chain image offset o) : Chain image o last := by
  rcases Relation.ReflTransGen.total_of_right_unique follows_unique ho hlast with hto | hfrom
  · exact hto
  · rw [h.eq_of_chain hfrom]
    exact .refl

theorem Ends.eq_or_lt {last : Nat} (h : Ends image last stop) (hlast : Chain image offset last)
    (ho : Chain image offset o) : o = last ∨ o < image.length := by
  rcases (h.chain hlast ho).cases_head with heq | ⟨_, ⟨length, i, hreads, -⟩, -⟩
  · exact Or.inl heq
  · exact Or.inr (Nat.lt_of_succ_lt hreads.lt_length)

theorem Ends.lt_of_reads {last : Nat} (h : Ends image last stop) (hlast : Chain image offset last)
    (ho : Chain image offset o) (hreads : Reads image o length i) : o < last := by
  have hle : o ≤ last := le_of_chain (h.chain hlast ho)
  rcases Nat.lt_or_eq_of_le hle with hlt | rfl
  · exact hlt
  · exact absurd h hreads.not_ends

/-! ### What the walk finds -/

namespace Lists

theorem ends_of_headless {opcode : UInt8} (hopcode : image[offset]? = some opcode)
    (hend : offset + 1 = image.length) : Ends image offset (some (offset, .truncated opcode 1 0)) :=
  .fails (.headless hopcode (List.getElem?_eq_none (Nat.le_of_eq hend.symm)))

theorem exists_end (h : Lists image offset entries stop) :
    ∃ last, Chain image offset last ∧ Ends image last stop := by
  induction h with
  | @past offset hend => exact ⟨offset, .refl, .past hend⟩
  | @headless offset _ hopcode hend => exact ⟨offset, .refl, ends_of_headless hopcode hend⟩
  | @bad offset _ _ _ hheader hdecode => exact ⟨offset, .refl, .fails (.bad hheader hdecode)⟩
  | @record offset opcode length i _ _ hheader hdecode hrest ih =>
    obtain ⟨last, hchain, hends⟩ := ih
    have hreads : Reads image offset length i := ⟨hheader, hdecode⟩
    exact ⟨last, .head ⟨length, i, hreads, rfl⟩ hchain, hends⟩

theorem mem_iff (h : Lists image offset entries stop) :
    (o, i) ∈ entries ↔ Chain image offset o ∧ ∃ length, Reads image o length i := by
  -- Where the walk ends the chain ends too, so that nothing further can be read.
  induction h with
  | past hend => exact iff_of_false List.not_mem_nil (Ends.past hend).not_reads_of_chain
  | headless hopcode hend =>
    exact iff_of_false List.not_mem_nil (ends_of_headless hopcode hend).not_reads_of_chain
  | bad hheader hdecode =>
    exact iff_of_false List.not_mem_nil (Ends.fails (.bad hheader hdecode)).not_reads_of_chain
  | @record offset opcode length j entries stop hheader hdecode hrest ih =>
    have hreads : Reads image offset length j := ⟨hheader, hdecode⟩
    rw [List.mem_cons, ih]
    constructor
    · rintro (heq | ⟨hchain, hread⟩)
      · cases heq
        exact ⟨.refl, length, hreads⟩
      · exact ⟨.head ⟨length, j, hreads, rfl⟩ hchain, hread⟩
    · rintro ⟨hchain, hread⟩
      rcases hchain.cases_head with rfl | ⟨next, hfollows, hchain⟩
      · obtain ⟨length', hread⟩ := hread
        rw [(hreads.unique hread).2]
        exact Or.inl rfl
      · rw [follows_unique hfollows ⟨length, j, hreads, rfl⟩] at hchain
        exact Or.inr ⟨hchain, hread⟩

/-- The entries of a listing stand in the order of the chain, with nothing between them. -/
theorem isChain (h : Lists image offset entries stop) :
    entries.IsChain fun a b => Follows image a.1 b.1 := by
  induction h with
  | @record offset opcode length i entries stop hheader hdecode hrest ih =>
    refine List.isChain_cons.mpr ⟨?_, ih⟩
    intro next hnext
    rw [hrest.start_eq.1 next hnext]
    exact ⟨length, i, ⟨hheader, hdecode⟩, rfl⟩
  | _ => exact List.IsChain.nil

theorem stop_eq_iff (h : Lists image offset entries stop) {other : Option (Nat × RecordError)} :
    stop = other ↔ ∃ last, Chain image offset last ∧ Ends image last other := by
  obtain ⟨last, hchain, hends⟩ := h.exists_end
  constructor
  · rintro rfl
    exact ⟨last, hchain, hends⟩
  · rintro ⟨last', hchain', hends'⟩
    have heq : last = last' := hends'.eq_of_chain (hends.chain hchain hchain')
    subst heq
    exact hends.unique hends'

/-- If every length byte is what its opcode consumes, the records are those of the instructions. -/
theorem drop_eq_flatMap (h : Lists image offset entries stop) (hstop : stop = none)
    (hcanonical : ∀ o i, (o, i) ∈ entries →
      image[o + 1]? = some (UInt8.ofNat i.opcode.operandSize)) :
    image.drop offset = entries.flatMap fun entry => entry.2.encode := by
  induction h with
  | past hend => exact List.drop_eq_nil_of_le hend
  | headless hopcode hend => cases hstop
  | bad hheader hdecode => cases hstop
  | @record offset opcode length i entries stop hheader hdecode hrest ih =>
    have hlength : length = UInt8.ofNat i.opcode.operandSize :=
      Option.some.inj (hheader.length_eq.symm.trans (hcanonical offset i List.mem_cons_self))
    have hsize : length.toNat = i.opcode.operandSize := by rw [hlength, toNat_operandSize]
    have htail := ih hstop fun o j hmem => hcanonical o j (List.mem_cons_of_mem _ hmem)
    obtain ⟨hwritten, -⟩ := decode_eq_ok_iff.mp hdecode
    have hencode : i.encode =
        opcode :: length :: (image.drop (offset + Opcode.headerLength)).take length.toNat := by
      rw [hwritten.encode_eq, operandsAt, ← hlength, ← hsize, List.take_take, Nat.min_self]
    have hnext : image.drop (behind offset length) =
        (image.drop (offset + Opcode.headerLength)).drop length.toNat := by
      rw [List.drop_drop, behind]
    rw [List.flatMap_cons, ← htail, hnext, hencode, hheader.drop_eq, List.cons_append,
      List.cons_append, List.take_append_drop]

end Lists

theorem stop_eq_some_iff : (ofImage image).stop = some (o, cause) ↔
    Reaches image o ∧ Fails image o cause := by
  rw [(ofImage_lists image).stop_eq_iff]
  constructor
  · rintro ⟨last, hchain, hends⟩
    cases hends with
    | fails hfails => exact ⟨hchain, hfails⟩
  · rintro ⟨hchain, hfails⟩
    exact ⟨o, hchain, .fails hfails⟩

/-- A listing has exactly the records on the chain of an image that starts at its first byte. Its
    first instruction stands there, and each further one where the length byte of the one in front
    of it tells; each is decoded from its opcode and its operands, as far as the image has them. The
    listing is stopped by an error if and only if the chain comes, inside the image, to a record
    that has no length byte or cannot be decoded, and then nothing is listed from there on.
    Otherwise the chain ends with its first offset that is not inside the image. If there is no
    error and all length bytes are canonical, the listing encodes to the image. -/
theorem listing_exact (image : List UInt8) :
    let listing := ofImage image
    (∀ entry ∈ listing.entries.head?, entry.1 = 0) ∧
      listing.entries.IsChain (fun a b => Follows image a.1 b.1) ∧
      (∀ o i, (o, i) ∈ listing.entries ↔ Reaches image o ∧ ∃ length, Reads image o length i) ∧
      (∀ o cause, listing.stop = some (o, cause) ↔ Reaches image o ∧ Fails image o cause) ∧
      (∀ o cause, listing.stop = some (o, cause) → ∀ entry ∈ listing.entries, entry.1 < o) ∧
      (listing.stop = none ↔ ∃ last, Reaches image last ∧ image.length ≤ last ∧
        ∀ o, Reaches image o → o = last ∨ o < image.length) ∧
      (listing.stop = none →
        (∀ o i, (o, i) ∈ listing.entries →
          image[o + 1]? = some (UInt8.ofNat i.opcode.operandSize)) →
        (listing.entries.flatMap fun entry => entry.2.encode) = image) := by
  intro listing
  have hlists : Lists image 0 listing.entries listing.stop := ofImage_lists image
  refine ⟨hlists.start_eq.1, hlists.isChain, fun o i => hlists.mem_iff, fun o cause =>
    stop_eq_some_iff, ?_, ?_, ?_⟩
  · rintro o cause hsome ⟨a, i⟩ hentry
    obtain ⟨hchain, hfails⟩ := stop_eq_some_iff.mp hsome
    obtain ⟨hentry, length, hreads⟩ := hlists.mem_iff.mp hentry
    exact (Ends.fails hfails).lt_of_reads hchain hentry hreads
  · rw [hlists.stop_eq_iff]
    constructor
    · rintro ⟨last, hchain, hends⟩
      cases hends with
      | past hend => exact ⟨last, hchain, hend, fun o ho => (Ends.past hend).eq_or_lt hchain ho⟩
    · rintro ⟨last, hchain, hend, -⟩
      exact ⟨last, hchain, .past hend⟩
  · intro hnone hcanonical
    exact (hlists.drop_eq_flatMap hnone hcanonical).symm

end Microboard.Listing
