import Microboard.Proofs.Flash

/-!
# Loads in a row

A load is taken as a whole or not at all, and what flash held before has no influence on it. After
any loads flash therefore holds the last image that was accepted, and nothing else:
`Keeps.loadAll`. A window is cut out between two machine words, and the sum that tells where it ends
is cut off at the largest word. Flash ends far below that word, so that a window always exists and
never shows the difference: `window?_eq`.
-/

namespace Microboard.Flash

variable {flash loaded : Flash} {image : Array UInt8}

/-! ### What loads leave behind -/

/-- Flash after a load, which changes nothing if the image is rejected. -/
def afterLoad (flash : Flash) (image : Array UInt8) : Flash :=
  match flash.load image with
  | .ok loaded => loaded
  | .error _ => flash

def loadAll (flash : Flash) (images : List (Array UInt8)) : Flash :=
  images.foldl afterLoad flash

/-- The images that are accepted when these are loaded in a row. -/
def accepted (flash : Flash) : List (Array UInt8) → List (Array UInt8)
  | [] => []
  | image :: images =>
    match flash.load image with
    | .ok loaded => image :: loaded.accepted images
    | .error _ => flash.accepted images

/-- Flash carries an image and counts it as the one that was loaded last. -/
structure Keeps (flash : Flash) (image : Array UInt8) : Prop extends
    flash.Carries image.toList where
  loaded_eq : flash.loaded = image.size

theorem keeps_empty : empty.Keeps #[] where
  fits := Nat.zero_le flashCapacity
  read_eq := by
    intro i
    exact read_of_loaded_le (Nat.zero_le i)
  loaded_eq := rfl

theorem keeps_of_load (h : flash.load image = .ok loaded) : loaded.Keeps image := by
  by_cases hfits : image.size ≤ flashCapacity
  · obtain ⟨other, hload, hloaded, hread⟩ := load_of_size_le hfits flash
    cases hload.symm.trans h
    refine ⟨⟨?_, ?_⟩, hloaded⟩
    · rwa [Array.length_toList]
    · intro i
      rw [hread, Array.getElem?_toList]
  · cases (load_of_lt (Nat.lt_of_not_le hfits) flash).symm.trans h

theorem Keeps.loadAll (h : flash.Keeps image) (images : List (Array UInt8)) :
    (flash.loadAll images).Keeps ((flash.accepted images).getLastD image) := by
  -- The induction carries the image that flash holds in front of the remaining loads.
  induction images generalizing flash image with
  | nil => exact h
  | cons next images ih =>
    rw [Flash.loadAll, List.foldl_cons, ← Flash.loadAll, accepted, afterLoad]
    cases hload : flash.load next with
    | ok loaded =>
      have hnext : loaded.Keeps next := keeps_of_load hload
      simp only [List.getLastD_cons]
      exact ih hnext
    | error cause => exact ih h

/-! ### Windows between machine words -/

/-- Sum of two machine words, or the largest word if the sum is larger still. -/
def saturatingSum (a b : USize) : USize :=
  USize.ofNat (min (a.toNat + b.toNat) (USize.size - 1))

/-- The cells from one place up to another one, if they come in this order and flash reaches that
    far. -/
def slice? (flash : Flash) (start stop : USize) : Option (List UInt8) :=
  if start ≤ stop ∧ stop.toNat ≤ flashCapacity then
    some (flash.cells.toArray.extract start.toNat stop.toNat).toList
  else none

/-- The window as it is cut out: both of its ends are moved back to the end of flash. -/
def window? (flash : Flash) (offset length : USize) : Option (List UInt8) :=
  let capacity := USize.ofNat flashCapacity
  flash.slice? (min offset capacity) (min (saturatingSum offset length) capacity)

theorem flashCapacity_lt_size : flashCapacity < USize.size :=
  Nat.lt_of_lt_of_le (by decide) USize.le_size

theorem toNat_saturatingSum (a b : USize) :
    (saturatingSum a b).toNat = min (a.toNat + b.toNat) (USize.size - 1) := by
  have hsize : 0 < USize.size := Nat.zero_lt_of_lt flashCapacity_lt_size
  exact USize.toNat_ofNat_of_lt' (by omega)

theorem toNat_min_word (a b : USize) : (min a b).toNat = min a.toNat b.toNat := by
  have hmin : min a b = if a ≤ b then a else b := rfl
  rw [hmin]
  by_cases h : a ≤ b
  · rw [if_pos h]
    exact (Nat.min_eq_left (USize.le_iff_toNat_le.mp h)).symm
  · rw [if_neg h]
    rw [USize.le_iff_toNat_le] at h
    exact (Nat.min_eq_right (Nat.le_of_not_le h)).symm

/-- A window can always be cut out, and no sum of machine words is too large for it. -/
theorem window?_eq (flash : Flash) (offset length : USize) :
    flash.window? offset length = some (flash.window offset.toNat length.toNat) := by
  have hcapacity : (USize.ofNat flashCapacity).toNat = flashCapacity :=
    USize.toNat_ofNat_of_lt' flashCapacity_lt_size
  have hstart : (min offset (USize.ofNat flashCapacity)).toNat = windowStart offset.toNat := by
    rw [toNat_min_word, hcapacity, windowStart]
  have hstop : (min (saturatingSum offset length) (USize.ofNat flashCapacity)).toNat =
      windowEnd offset.toNat length.toNat := by
    -- A sum that is cut off lies behind the end of flash all the same.
    have hsize := flashCapacity_lt_size
    rw [toNat_min_word, toNat_saturatingSum, hcapacity, windowEnd]
    omega
  have horder : min offset (USize.ofNat flashCapacity) ≤
      min (saturatingSum offset length) (USize.ofNat flashCapacity) := by
    rw [USize.le_iff_toNat_le, hstart, hstop]
    exact windowStart_le_windowEnd offset.toNat length.toNat
  have hinside : (min (saturatingSum offset length) (USize.ofNat flashCapacity)).toNat ≤
      flashCapacity := by
    rw [hstop]
    exact Nat.min_le_right _ _
  rw [window?, slice?, if_pos ⟨horder, hinside⟩, hstart, hstop, window_eq_extract]

theorem getElem?_window {offset length i : Nat} (h : i < (flash.window offset length).length) :
    (flash.window offset length)[i]? = flash.read? (offset + i) := by
  rw [length_window] at h
  have hcell : offset + i < flashCapacity := by omega
  rw [read?, if_pos hcell, window, List.getElem?_map, List.getElem?_range h, Option.map_some]

/-- Whatever images have been loaded in a row, accepted or rejected, flash counts the bytes of the
    image that was accepted last. A window exists for every offset and every length. It has as many
    bytes as were asked for, or as are left at the offset. Each is the byte that is read at its own
    offset, and that is the byte of the image, or zero behind the image. -/
theorem window?_loadAll (images : List (Array UInt8)) (offset length : USize) :
    let flash := empty.loadAll images
    let last := (empty.accepted images).getLastD #[]
    flash.loaded = last.size ∧
      ∃ window, flash.window? offset length = some window ∧
        window.length = min length.toNat (flashCapacity - min offset.toNat flashCapacity) ∧
        ∀ i < window.length,
          window[i]? = flash.read? (offset.toNat + i) ∧
            window[i]? = some (last[offset.toNat + i]?.getD 0) := by
  intro flash last
  have hkeeps : flash.Keeps last := keeps_empty.loadAll images
  refine ⟨hkeeps.loaded_eq, _, window?_eq flash offset length, ?_, ?_⟩
  · rw [length_window]
    omega
  · intro i hi
    have hread := getElem?_window hi
    have hcell : offset.toNat + i < flashCapacity := by
      rw [length_window] at hi
      omega
    refine ⟨hread, ?_⟩
    rw [hread, read?, if_pos hcell, hkeeps.read_eq, Array.getElem?_toList]

end Microboard.Flash
