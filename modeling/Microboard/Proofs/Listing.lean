import Microboard.Listing

/-!
# What a listing lists

The walk over an image as a relation: each record that is read leads to the offset that its length
byte tells, and the walk ends behind the image or at the first record that is no instruction.
`ofImage_lists` says that a listing is this walk.
-/

namespace Microboard.Listing

/-- The opcode and the length byte of a record stand in an image at an offset. -/
structure Header (image : List UInt8) (offset : Nat) (opcode length : UInt8) : Prop where
  opcode_eq : image[offset]? = some opcode
  length_eq : image[offset + 1]? = some length

/-- The operands of a record, as far as the image has them. -/
def operandsAt (image : List UInt8) (offset : Nat) (length : UInt8) : List UInt8 :=
  (image.drop (offset + Opcode.headerLength)).take length.toNat

/-- Where the record behind a record starts. -/
def behind (offset : Nat) (length : UInt8) : Nat :=
  offset + Opcode.headerLength + length.toNat

/-- From an offset on, the walk over an image finds these instructions, and is ended early by that
    record. -/
inductive Lists (image : List UInt8) :
    Nat → List (Nat × Instruction) → Option (Nat × RecordError) → Prop where
  | past {offset : Nat} (hend : image.length ≤ offset) : Lists image offset [] none
  | headless {offset : Nat} {opcode : UInt8} (hopcode : image[offset]? = some opcode)
      (hend : offset + 1 = image.length) :
      Lists image offset [] (some (offset, .truncated opcode 1 0))
  | bad {offset : Nat} {opcode length : UInt8} {cause : RecordError}
      (hheader : Header image offset opcode length)
      (hdecode : Instruction.decode opcode (operandsAt image offset length) = .error cause) :
      Lists image offset [] (some (offset, cause))
  | record {offset : Nat} {opcode length : UInt8} {i : Instruction}
      {entries : List (Nat × Instruction)} {stop : Option (Nat × RecordError)}
      (hheader : Header image offset opcode length)
      (hdecode : Instruction.decode opcode (operandsAt image offset length) = .ok i)
      (hrest : Lists image (behind offset length) entries stop) :
      Lists image offset ((offset, i) :: entries) stop

/-! ### The walk lists -/

theorem header_of_drop {image rest : List UInt8} {offset : Nat} {opcode length : UInt8}
    (h : image.drop offset = opcode :: length :: rest) :
    Header image offset opcode length ∧ image.drop (offset + Opcode.headerLength) = rest := by
  refine ⟨⟨?_, ?_⟩, ?_⟩
  · rw [← List.head?_drop, h]
    rfl
  · rw [← List.getElem?_drop, h]
    rfl
  · rw [← List.drop_drop, h]
    rfl

theorem walk_lists {image : List UInt8} (offset : Nat) (rest : List UInt8)
    (before : Array (Nat × Instruction)) (hrest : image.drop offset = rest) :
    ∃ entries stop, walk offset rest before = ⟨before.toList ++ entries, stop⟩ ∧
      Lists image offset entries stop := by
  -- The cases are those of the walk, which carries the rest of the image with the offset.
  induction offset, rest, before using walk.induct with
  | case1 offset before =>
    refine ⟨[], none, ?_, .past (List.drop_eq_nil_iff.mp hrest)⟩
    rw [walk, List.append_nil]
  | case2 offset before opcode =>
    have hopcode : image[offset]? = some opcode := by
      rw [← List.head?_drop, hrest]
      rfl
    have hlength := congrArg List.length hrest
    rw [List.length_drop, List.length_singleton] at hlength
    refine ⟨[], _, ?_, .headless hopcode (by omega)⟩
    rw [walk, List.append_nil]
  | case3 offset before opcode length rest cause hdecode =>
    obtain ⟨hheader, hoperands⟩ := header_of_drop hrest
    refine ⟨[], some (offset, cause), ?_, .bad hheader ?_⟩
    · simp only [walk, hdecode, List.append_nil]
    · rw [operandsAt, hoperands, hdecode]
  | case4 offset before opcode length rest i hdecode ih =>
    obtain ⟨hheader, hoperands⟩ := header_of_drop hrest
    have hnext : image.drop (offset + Opcode.headerLength + length.toNat) =
        rest.drop length.toNat := by
      rw [← hoperands, List.drop_drop]
    obtain ⟨entries, stop, hwalk, hlists⟩ := ih hnext
    refine ⟨(offset, i) :: entries, stop, ?_, .record hheader ?_ hlists⟩
    · simp only [walk, hdecode, hwalk, Array.toList_push, List.append_assoc,
        List.singleton_append]
    · rw [operandsAt, hoperands, hdecode]

/-- A listing is the walk from the first byte on. -/
theorem ofImage_lists (image : List UInt8) :
    Lists image 0 (ofImage image).entries (ofImage image).stop := by
  obtain ⟨entries, stop, hwalk, hlists⟩ := walk_lists 0 image #[] rfl
  rw [ofImage, hwalk]
  exact hlists

/-! ### Where the walk is -/

namespace Lists

variable {image : List UInt8} {offset : Nat} {entries : List (Nat × Instruction)}
  {stop : Option (Nat × RecordError)}

/-- The first thing that a walk comes upon stands where the walk starts. -/
theorem start_eq (h : Lists image offset entries stop) :
    (∀ entry ∈ entries.head?, entry.1 = offset) ∧
      (entries = [] → ∀ s ∈ stop, s.1 = offset) ∧
      (entries = [] → stop = none → image.length ≤ offset) := by
  cases h with
  | past hend => simp [hend]
  | headless hopcode hend => simp
  | bad hheader hdecode => simp
  | record hheader hdecode hrest => simp

/-- Behind an instruction that is listed, the walk goes on where its record ends. -/
theorem rest_of_append {front : List (Nat × Instruction)} {o : Nat} {i : Instruction}
    {rest : List (Nat × Instruction)} (h : Lists image offset (front ++ (o, i) :: rest) stop) :
    ∃ opcode length, Header image o opcode length ∧
      Instruction.decode opcode (operandsAt image o length) = .ok i ∧
      Lists image (behind o length) rest stop := by
  induction front generalizing offset with
  | nil =>
    cases h with
    | record hheader hdecode hrest => exact ⟨_, _, hheader, hdecode, hrest⟩
  | cons entry front ih =>
    cases h with
    | record hheader hdecode hrest => exact ih hrest

/-- What ends a walk early has no length byte, or cannot be decoded. -/
theorem stop_cases {o : Nat} {cause : RecordError} (h : Lists image offset entries stop)
    (hstop : stop = some (o, cause)) :
    (∃ opcode, image[o]? = some opcode ∧ o + 1 = image.length ∧
      cause = .truncated opcode 1 0) ∨
    (∃ opcode length, Header image o opcode length ∧
      Instruction.decode opcode (operandsAt image o length) = .error cause) := by
  induction h with
  | past hend => cases hstop
  | headless hopcode hend =>
    cases hstop
    exact Or.inl ⟨_, hopcode, hend, rfl⟩
  | bad hheader hdecode =>
    cases hstop
    exact Or.inr ⟨_, _, hheader, hdecode⟩
  | record hheader hdecode hrest ih => exact ih hstop

end Lists

end Microboard.Listing
