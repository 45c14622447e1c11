import Microboard.Flash

/-!
# What flash holds

Loading clears only the cells of the previous image and writes only those of the new one. The cells
behind the previous image are clear already, so what flash holds afterwards depends on the new image
alone: `load_eq_load`. A window is a slice of the cells, cut off where flash ends.
-/

namespace Microboard.Flash

/-- Flash is known by its reads and by how much of it the last image occupies. -/
theorem ext_read {a b : Flash} (hloaded : a.loaded = b.loaded)
    (hread : ∀ i, a.read i = b.read i) : a = b := by
  rcases a with ⟨cells, loaded, _, _⟩
  rcases b with ⟨cells', loaded', _, _⟩
  have hcells : cells = cells' := by
    apply Vector.ext
    intro i hi
    have h := hread i
    simpa [read, hi] using h
  subst hcells
  subst hloaded
  rfl

theorem load_of_lt {image : Array UInt8} (h : flashCapacity < image.size) (flash : Flash) :
    flash.load image = .error ⟨image.size, flashCapacity⟩ := by
  simp only [load, Nat.not_le.mpr h, dite_false]

/-- An image that fits is found from the first cell on, and behind it all is zero. -/
theorem load_of_size_le {image : Array UInt8} (h : image.size ≤ flashCapacity) (flash : Flash) :
    ∃ loaded, flash.load image = .ok loaded ∧ loaded.loaded = image.size ∧
      ∀ i, loaded.read i = image[i]?.getD 0 := by
  refine ⟨_, dif_pos h, rfl, ?_⟩
  intro i
  by_cases hi : i < image.size
  · simp only [read, getElem?_written h, if_pos hi]
  · have hsize : image.size ≤ i := Nat.le_of_not_lt hi
    rw [read_of_loaded_le hsize]
    simp [hsize]

/-- Flash holds an image from its first cell on, and zeros behind it. -/
structure Carries (flash : Flash) (image : List UInt8) : Prop where
  fits : image.length ≤ flashCapacity
  read_eq : ∀ i, flash.read i = image[i]?.getD 0

theorem carries_of_load {image : Array UInt8} (h : image.size ≤ flashCapacity) (flash : Flash) :
    ∃ loaded, flash.load image = .ok loaded ∧ loaded.Carries image.toList := by
  obtain ⟨loaded, hload, -, hread⟩ := load_of_size_le h flash
  refine ⟨loaded, hload, ?_, ?_⟩
  · rwa [Array.length_toList]
  · intro i
    rw [hread, Array.getElem?_toList]

/-- What flash held before a load has no influence on it. -/
theorem load_eq_load (image : Array UInt8) (flash other : Flash) :
    flash.load image = other.load image := by
  by_cases h : image.size ≤ flashCapacity
  · obtain ⟨loaded, hload, hsize, hread⟩ := load_of_size_le h flash
    obtain ⟨loaded', hload', hsize', hread'⟩ := load_of_size_le h other
    rw [hload, hload', ext_read (hsize.trans hsize'.symm) fun i => by rw [hread, hread']]
  · rw [load_of_lt (Nat.lt_of_not_le h), load_of_lt (Nat.lt_of_not_le h)]

theorem cells_of_load {image : Array UInt8} {flash loaded : Flash}
    (h : flash.load image = .ok loaded) :
    loaded.cells.toList = image.toList ++ List.replicate (flashCapacity - image.size) 0 := by
  by_cases hfits : image.size ≤ flashCapacity
  · obtain ⟨other, hload, -, hread⟩ := load_of_size_le hfits flash
    rw [h] at hload
    cases hload
    apply List.ext_getElem
    · simp only [Vector.length_toList, List.length_append, Array.length_toList,
        List.length_replicate]
      omega
    · intro i hi _
      have hcell := hread i
      have hcap : i < flashCapacity := by simpa using hi
      simp only [read, Vector.getElem?_eq_getElem hcap, Option.getD_some] at hcell
      rw [Vector.getElem_toList, hcell, List.getElem_append]
      by_cases himage : i < image.size
      · simp [himage]
      · simp [himage]
  · rw [load_of_lt (Nat.lt_of_not_le hfits)] at h
    cases h

/-! ### Windows and records -/

def windowStart (offset : Nat) : Nat :=
  min offset flashCapacity

def windowEnd (offset length : Nat) : Nat :=
  min (offset + length) flashCapacity

theorem windowStart_le_windowEnd (offset length : Nat) :
    windowStart offset ≤ windowEnd offset length := by
  unfold windowStart windowEnd
  omega

theorem window_eq_extract (flash : Flash) (offset length : Nat) :
    flash.window offset length =
      (flash.cells.toArray.extract (windowStart offset) (windowEnd offset length)).toList := by
  apply List.ext_getElem
  · simp only [length_window, Array.length_toList, Array.size_extract, Vector.size_toArray]
    unfold windowStart windowEnd
    omega
  · intro i hi hi'
    rw [length_window] at hi
    have hstart : windowStart offset = offset := Nat.min_eq_left (by omega)
    have hcell : offset + i < flashCapacity := by omega
    simp [window, read, hstart, hcell]

/-- What reading a record comes to. At the very end of flash there is no length byte, and what is
    reported is that it is missing, or that the opcode is unknown. -/
theorem record_cases (flash : Flash) (offset : Nat) :
    (∃ length i, flash.read? (offset + 1) = some length ∧
      Instruction.decode (flash.read offset)
        (flash.window (offset + Opcode.headerLength) length.toNat) = .ok i ∧
      flash.record offset = .ok (i, length)) ∨
    (∃ length cause, flash.read? (offset + 1) = some length ∧
      Instruction.decode (flash.read offset)
        (flash.window (offset + Opcode.headerLength) length.toNat) = .error cause ∧
      flash.record offset = .error cause) ∨
    (∃ op, flash.read? (offset + 1) = none ∧ Opcode.ofByte? (flash.read offset) = some op ∧
      flash.record offset = .error (.truncated (flash.read offset) 1 0)) ∨
    (flash.read? (offset + 1) = none ∧ Opcode.ofByte? (flash.read offset) = none ∧
      flash.record offset = .error (.unknownOpcode (flash.read offset))) := by
  rcases hlength : flash.read? (offset + 1) with _ | length
  · rcases hop : Opcode.ofByte? (flash.read offset) with _ | op
    · refine Or.inr (Or.inr (Or.inr ⟨rfl, rfl, ?_⟩))
      simp [record, hlength, hop]
    · refine Or.inr (Or.inr (Or.inl ⟨op, rfl, rfl, ?_⟩))
      simp [record, hlength, hop]
  · rcases hdecode : Instruction.decode (flash.read offset)
        (flash.window (offset + Opcode.headerLength) length.toNat) with cause | i
    · refine Or.inr (Or.inl ⟨length, cause, rfl, hdecode, ?_⟩)
      simp only [record, hlength, hdecode]
    · refine Or.inl ⟨length, i, rfl, hdecode, ?_⟩
      simp only [record, hlength, hdecode]

theorem record_eq_ok {flash : Flash} {offset : Nat} {i : Instruction} {length : UInt8}
    (h : flash.record offset = .ok (i, length)) :
    flash.read? (offset + 1) = some length ∧
      Instruction.decode (flash.read offset)
        (flash.window (offset + Opcode.headerLength) length.toNat) = .ok i := by
  rcases flash.record_cases offset with ⟨byte, j, hlength, hdecode, hrecord⟩ |
    ⟨byte, cause, -, -, hrecord⟩ | ⟨op, -, -, hrecord⟩ | ⟨-, -, hrecord⟩
  · cases hrecord.symm.trans h
    exact ⟨hlength, hdecode⟩
  · cases hrecord.symm.trans h
  · cases hrecord.symm.trans h
  · cases hrecord.symm.trans h

end Microboard.Flash
