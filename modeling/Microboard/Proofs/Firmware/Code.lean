import Microboard.Listing
import Microboard.Proofs.Instruction.Decoding

/-!
# Code and its bytes

The bytes of a list of instructions are their canonical records one behind the other. A listing of
these bytes gives the instructions back, each at the offset that the records in front of it add up
to: `ofImage_bytes`.
-/

namespace Microboard

namespace Instruction

/-- The records of instructions, one behind the other. -/
def bytes (is : List Instruction) : List UInt8 :=
  is.flatMap encode

/-- How many bytes the records of instructions take. -/
def size : List Instruction → Nat
  | [] => 0
  | i :: is => i.opcode.recordLength + size is

/-- Instructions with the offsets of their records, the first of which stands at `offset`. -/
def placed (offset : Nat) : List Instruction → List (Nat × Instruction)
  | [] => []
  | i :: is => (offset, i) :: placed (offset + i.opcode.recordLength) is

@[simp] theorem bytes_nil : bytes [] = [] := rfl

@[simp] theorem bytes_cons (i : Instruction) (is : List Instruction) :
    bytes (i :: is) = i.encode ++ bytes is := rfl

@[simp] theorem bytes_append (is js : List Instruction) :
    bytes (is ++ js) = bytes is ++ bytes js :=
  List.flatMap_append

@[simp] theorem size_nil : size [] = 0 := rfl

@[simp] theorem size_cons (i : Instruction) (is : List Instruction) :
    size (i :: is) = i.opcode.recordLength + size is := rfl

@[simp] theorem size_append (is js : List Instruction) : size (is ++ js) = size is + size js := by
  induction is with
  | nil => rw [List.nil_append, size_nil, Nat.zero_add]
  | cons i is ih => rw [List.cons_append, size_cons, size_cons, ih, Nat.add_assoc]

@[simp] theorem length_bytes (is : List Instruction) : (bytes is).length = size is := by
  induction is with
  | nil => rfl
  | cons i is ih => rw [bytes_cons, List.length_append, length_encode, ih, size_cons]

theorem placed_append (offset : Nat) (is js : List Instruction) :
    placed offset (is ++ js) = placed offset is ++ placed (offset + size is) js := by
  induction is generalizing offset with
  | nil => rfl
  | cons i is ih =>
    rw [List.cons_append, placed, ih, placed, List.cons_append, size_cons, Nat.add_assoc]

theorem mem_placed_append (offset : Nat) (before behind : List Instruction) (i : Instruction) :
    (offset + size before, i) ∈ placed offset (before ++ i :: behind) := by
  rw [placed_append, placed]
  simp

theorem length_placed (offset : Nat) (is : List Instruction) :
    (placed offset is).length = is.length := by
  induction is generalizing offset with
  | nil => rfl
  | cons i is ih => rw [placed, List.length_cons, List.length_cons, ih]

theorem map_snd_placed (offset : Nat) (is : List Instruction) :
    (placed offset is).map Prod.snd = is := by
  induction is generalizing offset with
  | nil => rfl
  | cons i is ih => rw [placed, List.map_cons, ih]

theorem getElem?_placed_append (offset : Nat) (before behind : List Instruction)
    (i : Instruction) :
    (placed offset (before ++ i :: behind))[before.length]? = some (offset + size before, i) := by
  have hlength := length_placed offset before
  rw [placed_append, placed, List.getElem?_append_right (Nat.le_of_eq hlength), hlength,
    Nat.sub_self, List.getElem?_cons_zero]

theorem exists_mem_placed {is : List Instruction} {i : Instruction} (h : i ∈ is) (offset : Nat) :
    ∃ a, (a, i) ∈ placed offset is := by
  obtain ⟨before, behind, rfl⟩ := List.append_of_mem h
  exact ⟨_, mem_placed_append offset before behind i⟩

theorem append_of_mem_placed {offset a : Nat} {i : Instruction} {is : List Instruction}
    (h : (a, i) ∈ placed offset is) :
    ∃ before behind, is = before ++ i :: behind ∧ a = offset + size before := by
  induction is generalizing offset with
  | nil => cases h
  | cons j is ih =>
    rcases List.mem_cons.mp h with heq | hmem
    · cases heq
      exact ⟨[], is, rfl, rfl⟩
    · obtain ⟨before, behind, rfl, rfl⟩ := ih hmem
      exact ⟨j :: before, behind, rfl, by rw [size_cons, Nat.add_assoc]⟩

theorem recordLength_pos (op : Opcode) : 2 ≤ op.recordLength := by
  simp only [Opcode.recordLength, Opcode.headerLength]
  omega

theorem mem_placed_lt {offset a : Nat} {i : Instruction} {is : List Instruction}
    (h : (a, i) ∈ placed offset is) :
    offset ≤ a ∧ a + i.opcode.recordLength ≤ offset + size is := by
  induction is generalizing offset with
  | nil => cases h
  | cons j is ih =>
    rcases List.mem_cons.mp h with heq | hmem
    · cases heq
      exact ⟨Nat.le_refl _, by rw [size_cons]; omega⟩
    · obtain ⟨hle, hlt⟩ := ih hmem
      rw [size_cons]
      exact ⟨by omega, by omega⟩

theorem pairwise_placed (offset : Nat) (is : List Instruction) :
    (placed offset is).Pairwise fun a b => a.1 < b.1 := by
  induction is generalizing offset with
  | nil => exact List.Pairwise.nil
  | cons i is ih =>
    refine List.pairwise_cons.mpr ⟨?_, ih _⟩
    rintro ⟨a, j⟩ hmem
    have hle := (mem_placed_lt hmem).1
    have hpos := recordLength_pos i.opcode
    simp only
    omega

/-! ### Code inside code -/

/-- Instructions stand one behind the other in code, the first of them at an offset. -/
def Stands (code : List Instruction) (offset : Nat) (is : List Instruction) : Prop :=
  ∃ before behind, code = before ++ is ++ behind ∧ offset = size before

namespace Stands

variable {code is js : List Instruction} {offset : Nat}

theorem whole (code : List Instruction) : Stands code 0 code :=
  ⟨[], [], (List.append_nil code).symm, rfl⟩

theorem left (h : Stands code offset (is ++ js)) : Stands code offset is := by
  obtain ⟨before, behind, rfl, rfl⟩ := h
  exact ⟨before, js ++ behind, by simp, rfl⟩

theorem right (h : Stands code offset (is ++ js)) : Stands code (offset + size is) js := by
  obtain ⟨before, behind, rfl, rfl⟩ := h
  exact ⟨before ++ is, behind, by simp, (size_append before is).symm⟩

theorem le (h : Stands code offset is) : offset + size is ≤ size code := by
  obtain ⟨before, behind, rfl, rfl⟩ := h
  rw [size_append, size_append]
  omega

theorem bytes_prefix (h : Stands code offset is) : bytes is <+: (bytes code).drop offset := by
  obtain ⟨before, behind, rfl, rfl⟩ := h
  refine ⟨bytes behind, ?_⟩
  rw [List.append_assoc, bytes_append, ← length_bytes, List.drop_left, bytes_append]

/-- What is placed in the range of the instructions is one of them. -/
theorem mem_placed (h : Stands code offset is) {a : Nat} {i : Instruction}
    (hmem : (a, i) ∈ placed 0 code) (hle : offset ≤ a) (hlt : a < offset + size is) :
    (a, i) ∈ placed offset is := by
  obtain ⟨before, behind, rfl, rfl⟩ := h
  rw [placed_append, placed_append, size_append, Nat.zero_add, Nat.zero_add] at hmem
  have hpos := recordLength_pos i.opcode
  rcases List.mem_append.mp hmem with hfront | hbehind
  · rcases List.mem_append.mp hfront with hbefore | hhere
    · have hend := (mem_placed_lt hbefore).2
      omega
    · exact hhere
  · have hstart := (mem_placed_lt hbehind).1
    omega

end Stands

/-! ### Canonical records -/

theorem encode_eq (i : Instruction) :
    i.encode = i.opcode.byte :: UInt8.ofNat i.opcode.operandSize :: i.operands := rfl

theorem toNat_operandSize (op : Opcode) : (UInt8.ofNat op.operandSize).toNat = op.operandSize := by
  cases op <;> rfl

end Instruction

namespace Listing

open Instruction

theorem walk_bytes {is : List Instruction} (h : ∀ i ∈ is, i.Addressable) (offset : Nat)
    (before : Array (Nat × Instruction)) :
    walk offset (bytes is) before = ⟨before.toList ++ placed offset is, none⟩ := by
  induction is generalizing offset before with
  | nil => simp [walk, placed]
  | cons i is ih =>
    have hi : i.Addressable := h i (by simp)
    have htake : (i.operands ++ bytes is).take (UInt8.ofNat i.opcode.operandSize).toNat =
        i.operands := by
      rw [toNat_operandSize, ← length_operands, List.take_left']
      rfl
    have hdrop : (i.operands ++ bytes is).drop (UInt8.ofNat i.opcode.operandSize).toNat =
        bytes is := by
      rw [toNat_operandSize, ← length_operands, List.drop_left']
      rfl
    have hdecode : decode i.opcode.byte i.operands = .ok i := by
      have hd := decode_operands hi []
      rwa [List.append_nil] at hd
    rw [bytes_cons, encode_eq, List.cons_append, List.cons_append, walk, htake, hdecode, hdrop]
    simp only
    rw [ih (fun j hj => h j (List.mem_cons_of_mem i hj)), toNat_operandSize, placed]
    simp [Opcode.recordLength, Nat.add_assoc]

theorem ofImage_bytes {is : List Instruction} (h : ∀ i ∈ is, i.Addressable) :
    ofImage (bytes is) = ⟨placed 0 is, none⟩ := by
  rw [ofImage, walk_bytes h]
  simp

/-- Listing the records of instructions, one behind the other, ends at no error and gives these
    instructions back in order, each at the offset to which the records in front of it add up. -/
theorem listing_inverts_encoding {is : List Instruction} (h : ∀ i ∈ is, i.Addressable) :
    let listing := ofImage (is.flatMap encode)
    listing.stop = none ∧ listing.entries.map Prod.snd = is ∧
      ∀ before i behind, is = before ++ i :: behind →
        listing.entries[before.length]? = some ((before.flatMap encode).length, i) := by
  intro listing
  have hlisting : listing = ⟨placed 0 is, none⟩ := ofImage_bytes h
  rw [hlisting]
  refine ⟨rfl, map_snd_placed 0 is, ?_⟩
  rintro before i behind rfl
  have hsize : (before.flatMap encode).length = size before := length_bytes before
  rw [hsize]
  simpa only [Nat.zero_add] using getElem?_placed_append 0 before behind i

/-- Records of four different lengths and operand kinds. -/
theorem listing_inverts_encoding_mixed :
    let is : List Instruction := [.delay 10000, .screenClear, .jump .less 255, .drawPixel 15 3]
    (∀ i ∈ is, i.Addressable) ∧
      (ofImage (is.flatMap encode)).stop = none ∧
      (ofImage (is.flatMap encode)).entries.map Prod.snd = is ∧
      (ofImage (is.flatMap encode)).entries[3]? = some (9, .drawPixel 15 3) := by
  intro is
  have his : ∀ i ∈ is, i.Addressable := by
    simp [is, Addressable, registers, registerCount]
  obtain ⟨hstop, hentries, hoffset⟩ := listing_inverts_encoding his
  exact ⟨his, hstop, hentries, hoffset [.delay 10000, .screenClear, .jump .less 255] _ [] rfl⟩

end Listing

end Microboard
