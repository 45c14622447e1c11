import Microboard.Instruction.Record

/-!
# Decoding is the inverse of encoding

The bytes of a record determine an instruction whether or not its registers exist: `WrittenAs`.
Decoding yields this instruction if its registers exist, and otherwise reports the first of them
that does not. Where no instruction is written at all, the opcode is unknown or operands are
missing: `decode_inverts_encode`. Operands behind those that the opcode consumes do not matter.
-/

namespace Microboard.Instruction

variable {opcode : UInt8} {op : Opcode} {operands : List UInt8} {i : Instruction}

/-! ### Too little to decode -/

theorem operandSize_le (op : Opcode) : op.operandSize ≤ 2 := by
  cases op <;> simp [Opcode.operandSize]

theorem decode_of_unknown (h : Opcode.ofByte? opcode = none) (operands : List UInt8) :
    decode opcode operands = .error (.unknownOpcode opcode) := by
  simp only [decode, h]

theorem decode_of_short (hop : Opcode.ofByte? opcode = some op)
    (hshort : operands.length < op.operandSize) :
    decode opcode operands = .error (.truncated opcode op.operandSize operands.length) := by
  rcases operands with _ | ⟨r, _ | ⟨s, rest⟩⟩
  · cases op with
    | screenClear => cases hshort
    | _ => simp only [decode, hop]
  · cases op with
    | loadImmediate | storePin | loadPin | add | subtract | compare | delay | drawPixel =>
      simp only [decode, hop]
    | _ => simp [Opcode.operandSize] at hshort
  · have hle := operandSize_le op
    simp only [List.length_cons] at hshort
    omega

/-! ### Registers that do not exist -/

/-- The first register operand that names no register of the board. -/
def missingRegister? (i : Instruction) : Option UInt8 :=
  i.registers.find? (fun r => decide (registerCount ≤ r.toNat))

theorem missingRegister?_eq_none : i.missingRegister? = none ↔ i.Addressable := by
  simp only [missingRegister?, List.find?_eq_none, decide_eq_true_eq, Nat.not_le, Addressable]

theorem register_ok {r : UInt8} (h : r.toNat < registerCount) (opcode : UInt8) :
    register opcode r = .ok r := by
  rw [register, if_pos h]

theorem register_of_le {r : UInt8} (h : registerCount ≤ r.toNat) (opcode : UInt8) :
    register opcode r = .error (.invalidRegister opcode r) := by
  rw [register, if_neg (Nat.not_lt.mpr h)]

/-! ### Decoding what was encoded -/

/-- Decoding the canonical operands gives the instruction back; bytes behind them do not matter. -/
theorem decode_operands {i : Instruction} (h : i.Addressable) (surplus : List UInt8) :
    decode i.opcode.byte (i.operands ++ surplus) = .ok i := by
  unfold Addressable at h
  cases i with
  | jump condition target =>
    simp only [decode, opcode, Opcode.ofByte?_byte, operands, List.singleton_append]
    rfl
  | delay cycles =>
    simp only [decode, opcode, Opcode.ofByte?_byte, operands, List.cons_append, List.nil_append]
    have hcycles : (UInt8.ofNat (cycles.toNat % 256)).toNat
        + 256 * (UInt8.ofNat (cycles.toNat / 256)).toNat = cycles.toNat := by
      have hlt := cycles.toNat_lt
      simp only [UInt8.toNat_ofNat']
      omega
    rw [hcycles, UInt16.ofNat_toNat]
    rfl
  | screenClear => rfl
  | _ =>
    simp only [registers, List.mem_cons, List.not_mem_nil, or_false, forall_eq_or_imp,
      forall_eq] at h
    simp only [decode, opcode, Opcode.ofByte?_byte, operands, List.cons_append, List.nil_append,
      register_ok, h, bind, Except.bind, pure, Except.pure]

theorem decode_operands_of_missing {r : UInt8} (h : i.missingRegister? = some r)
    (surplus : List UInt8) :
    decode i.opcode.byte (i.operands ++ surplus) = .error (.invalidRegister i.opcode.byte r) := by
  unfold missingRegister? at h
  -- The cases are those of the register operands: none, two, or one.
  cases i with
  | jump | delay | screenClear => cases h
  | add d s | subtract d s | compare d s | drawPixel d s =>
    by_cases hd : registerCount ≤ d.toNat
    · have hr : d = r := by simpa [registers, hd] using h
      subst hr
      simp only [decode, Instruction.opcode, Opcode.ofByte?_byte, Instruction.operands,
        List.cons_append, register_of_le hd]
      rfl
    · have hs : registerCount ≤ s.toNat ∧ s = r := by simpa [registers, hd] using h
      obtain ⟨hs, rfl⟩ := hs
      simp only [decode, Instruction.opcode, Opcode.ofByte?_byte, Instruction.operands,
        List.cons_append, register_ok (Nat.lt_of_not_le hd), register_of_le hs]
      rfl
  | _ d =>
    have hd : registerCount ≤ d.toNat ∧ d = r := by simpa [registers] using h
    obtain ⟨hd, rfl⟩ := hd
    simp only [decode, Instruction.opcode, Opcode.ofByte?_byte, Instruction.operands,
      List.cons_append, register_of_le hd]
    rfl

/-! ### The instruction that bytes write -/

/-- The canonical record of an instruction consists of the opcode byte, the number of operands that
    the opcode consumes, and the first so many of the operand bytes. The registers that the
    instruction names need not exist. -/
structure WrittenAs (opcode : UInt8) (operands : List UInt8) (i : Instruction) : Prop where
  opcode_eq : Opcode.ofByte? opcode = some i.opcode
  enough : i.opcode.operandSize ≤ operands.length
  encode_eq : i.encode =
    opcode :: UInt8.ofNat i.opcode.operandSize :: operands.take i.opcode.operandSize

/-- The instruction of an operation that is written with two operand bytes, or with the first of
    them, or with none. -/
def ofBytes (first second : UInt8) : Opcode → Instruction
  | .loadImmediate => .loadImmediate first second
  | .storePin => .storePin first second
  | .loadPin => .loadPin first second
  | .jump condition => .jump condition first
  | .serialWrite => .serialWrite first
  | .add => .add first second
  | .subtract => .subtract first second
  | .compare => .compare first second
  | .delay => .delay (UInt16.ofNat (first.toNat + 256 * second.toNat))
  | .readAdc => .readAdc first
  | .spiWrite => .spiWrite first
  | .screenPrint => .screenPrint first
  | .screenClear => .screenClear
  | .drawPixel => .drawPixel first second
  | .moveX => .moveX first
  | .moveY => .moveY first

theorem opcode_ofBytes (first second : UInt8) (op : Opcode) :
    (ofBytes first second op).opcode = op := by
  cases op <;> rfl

theorem operands_ofBytes (first second : UInt8) (op : Opcode) :
    (ofBytes first second op).operands = [first, second].take op.operandSize := by
  cases op with
  | delay =>
    have hfirst := first.toNat_lt
    have hsecond := second.toNat_lt
    have hcycles : (UInt16.ofNat (first.toNat + 256 * second.toNat)).toNat =
        first.toNat + 256 * second.toNat := by
      rw [UInt16.toNat_ofNat']
      omega
    have hlow : (first.toNat + 256 * second.toNat) % 256 = first.toNat := by omega
    have hhigh : (first.toNat + 256 * second.toNat) / 256 = second.toNat := by omega
    simp only [ofBytes, Instruction.operands, hcycles, hlow, hhigh, UInt8.ofNat_toNat]
    rfl
  | _ => rfl

theorem take_padded {n : Nat} (hn : n ≤ 2) (h : n ≤ operands.length) :
    [operands[0]?.getD 0, operands[1]?.getD 0].take n = operands.take n := by
  match n, operands with
  | 0, _ => rfl
  | 1, r :: _ => rfl
  | 2, r :: s :: _ => rfl

theorem WrittenAs.of_operands (hop : Opcode.ofByte? opcode = some i.opcode)
    (hoperands : i.operands = operands.take i.opcode.operandSize) : WrittenAs opcode operands i := by
  refine ⟨hop, ?_, ?_⟩
  · have hlength := length_operands i
    rw [hoperands, List.length_take] at hlength
    omega
  · rw [encode, Opcode.byte_of_ofByte? hop, hoperands]

/-- A known opcode and as many operand bytes as it consumes always write an instruction. -/
theorem exists_writtenAs (hop : Opcode.ofByte? opcode = some op)
    (henough : op.operandSize ≤ operands.length) :
    ∃ i, WrittenAs opcode operands i ∧ i.opcode = op := by
  let i := ofBytes (operands[0]?.getD 0) (operands[1]?.getD 0) op
  have hi : i.opcode = op := opcode_ofBytes _ _ op
  refine ⟨i, .of_operands (by rw [hop, hi]) ?_, hi⟩
  rw [hi, operands_ofBytes, take_padded (operandSize_le op) henough]

/-! ### Decoding what is written -/

namespace WrittenAs

/-- Bytes behind the operands that are written do not matter. -/
theorem append (h : WrittenAs opcode operands i) (surplus : List UInt8) :
    WrittenAs opcode (operands ++ surplus) i := by
  refine ⟨h.opcode_eq, ?_, ?_⟩
  · rw [List.length_append]
    exact Nat.le_add_right_of_le h.enough
  · rw [h.encode_eq, List.take_append_of_le_length h.enough]

theorem eq_append (h : WrittenAs opcode operands i) :
    opcode = i.opcode.byte ∧ operands = i.operands ++ operands.drop i.opcode.operandSize := by
  have hencode := h.encode_eq
  rw [encode, List.cons.injEq, List.cons.injEq] at hencode
  obtain ⟨hopcode, -, hoperands⟩ := hencode
  rw [hoperands, List.take_append_drop]
  exact ⟨hopcode.symm, rfl⟩

theorem decode_of_addressable (h : WrittenAs opcode operands i) (hi : i.Addressable) :
    decode opcode operands = .ok i := by
  obtain ⟨hopcode, hoperands⟩ := h.eq_append
  rw [hopcode, hoperands]
  exact decode_operands hi _

theorem decode_of_missing {r : UInt8} (h : WrittenAs opcode operands i)
    (hr : i.missingRegister? = some r) :
    decode opcode operands = .error (.invalidRegister opcode r) := by
  obtain ⟨hopcode, hoperands⟩ := h.eq_append
  rw [hopcode, hoperands]
  exact decode_operands_of_missing hr _

end WrittenAs

/-- What decoding can come upon: an opcode that is unknown, too few operands, or an instruction,
    which may name a register that does not exist. -/
theorem decode_cases (opcode : UInt8) (operands : List UInt8) :
    (Opcode.ofByte? opcode = none ∧ decode opcode operands = .error (.unknownOpcode opcode)) ∨
    (∃ op, Opcode.ofByte? opcode = some op ∧ operands.length < op.operandSize ∧
      decode opcode operands = .error (.truncated opcode op.operandSize operands.length)) ∨
    (∃ i r, WrittenAs opcode operands i ∧ i.missingRegister? = some r ∧
      decode opcode operands = .error (.invalidRegister opcode r)) ∨
    (∃ i, WrittenAs opcode operands i ∧ i.Addressable ∧ decode opcode operands = .ok i) := by
  rcases hop : Opcode.ofByte? opcode with _ | op
  · exact Or.inl ⟨rfl, decode_of_unknown hop operands⟩
  · by_cases hshort : operands.length < op.operandSize
    · exact Or.inr (Or.inl ⟨op, rfl, hshort, decode_of_short hop hshort⟩)
    · obtain ⟨i, hi, -⟩ := exists_writtenAs hop (Nat.le_of_not_lt hshort)
      rcases hr : i.missingRegister? with _ | r
      · have haddressable := missingRegister?_eq_none.mp hr
        exact Or.inr (Or.inr (Or.inr ⟨i, hi, haddressable, hi.decode_of_addressable haddressable⟩))
      · exact Or.inr (Or.inr (Or.inl ⟨i, r, hi, hr, hi.decode_of_missing hr⟩))

theorem decode_eq_ok_iff :
    decode opcode operands = .ok i ↔ WrittenAs opcode operands i ∧ i.Addressable := by
  constructor
  · intro hdecode
    rcases decode_cases opcode operands with ⟨-, h⟩ | ⟨op, -, -, h⟩ | ⟨j, r, -, -, h⟩ |
      ⟨j, hj, haddressable, h⟩
    · cases h.symm.trans hdecode
    · cases h.symm.trans hdecode
    · cases h.symm.trans hdecode
    · cases h.symm.trans hdecode
      exact ⟨hj, haddressable⟩
  · rintro ⟨hwritten, haddressable⟩
    exact hwritten.decode_of_addressable haddressable

theorem decode_eq_error_iff {e : RecordError} :
    decode opcode operands = .error e ↔
      (Opcode.ofByte? opcode = none ∧ e = .unknownOpcode opcode) ∨
      (∃ op, Opcode.ofByte? opcode = some op ∧ operands.length < op.operandSize ∧
        e = .truncated opcode op.operandSize operands.length) ∨
      (∃ i r, WrittenAs opcode operands i ∧ i.missingRegister? = some r ∧
        e = .invalidRegister opcode r) := by
  constructor
  · intro hdecode
    rcases decode_cases opcode operands with ⟨hop, h⟩ | ⟨op, hop, hshort, h⟩ | ⟨j, r, hj, hr, h⟩ |
      ⟨j, -, -, h⟩
    · cases h.symm.trans hdecode
      exact Or.inl ⟨hop, rfl⟩
    · cases h.symm.trans hdecode
      exact Or.inr (Or.inl ⟨op, hop, hshort, rfl⟩)
    · cases h.symm.trans hdecode
      exact Or.inr (Or.inr ⟨j, r, hj, hr, rfl⟩)
    · cases h.symm.trans hdecode
  · rintro (⟨hop, rfl⟩ | ⟨op, hop, hshort, rfl⟩ | ⟨j, r, hj, hr, rfl⟩)
    · exact decode_of_unknown hop operands
    · exact decode_of_short hop hshort
    · exact hj.decode_of_missing hr

/-- Decoding is the exact inverse of encoding. It yields an instruction if and only if the canonical
    record of this instruction consists of the opcode byte, the number of operands that the opcode
    consumes, and the first so many of the operand bytes, and all its registers exist; the bytes
    behind these do not matter. Otherwise it reports an opcode that is unknown; or else that there
    are fewer operands than the opcode consumes; or else the first register operand of the
    instruction that names no register. -/
theorem decode_inverts_encode (opcode : UInt8) (operands : List UInt8) :
    (∀ i, decode opcode operands = .ok i ↔ WrittenAs opcode operands i ∧ i.Addressable) ∧
    ∀ e, decode opcode operands = .error e ↔
      (Opcode.ofByte? opcode = none ∧ e = .unknownOpcode opcode) ∨
      (∃ op, Opcode.ofByte? opcode = some op ∧ operands.length < op.operandSize ∧
        e = .truncated opcode op.operandSize operands.length) ∨
      (∃ i r, WrittenAs opcode operands i ∧ i.missingRegister? = some r ∧
        e = .invalidRegister opcode r) :=
  ⟨fun _ => decode_eq_ok_iff, fun _ => decode_eq_error_iff⟩

/-- The second register is missing; what stands behind the two registers is surplus. -/
example : decode 0x11 [3, 17, 16, 200] = .error (.invalidRegister 0x11 17) := by
  rfl

/-! ### What follows -/

theorem addressable_of_decode (h : decode opcode operands = .ok i) : i.Addressable :=
  (decode_eq_ok_iff.mp h).2

/-- Whatever is wrong with a record, the error names its opcode. -/
theorem opcode_of_decode_error {e : RecordError} (h : decode opcode operands = .error e) :
    e.opcode = opcode := by
  rcases decode_eq_error_iff.mp h with ⟨-, rfl⟩ | ⟨op, -, -, rfl⟩ | ⟨i, r, -, -, rfl⟩
  · rfl
  · rfl
  · rfl

/-- With enough operands, all that can be wrong is a register that does not exist. -/
theorem decode_of_le (hop : Opcode.ofByte? opcode = some op)
    (hle : op.operandSize ≤ operands.length) :
    (∃ i, decode opcode operands = .ok i ∧ i.opcode = op) ∨
      ∃ r, decode opcode operands = .error (.invalidRegister opcode r) := by
  obtain ⟨i, hi, hiop⟩ := exists_writtenAs hop hle
  rcases hr : i.missingRegister? with _ | r
  · exact Or.inl ⟨i, hi.decode_of_addressable (missingRegister?_eq_none.mp hr), hiop⟩
  · exact Or.inr ⟨r, hi.decode_of_missing hr⟩

/-- Operands behind those that the opcode consumes are not looked at. -/
theorem decode_append (hop : Opcode.ofByte? opcode = some op)
    (hle : op.operandSize ≤ operands.length) (surplus : List UInt8) :
    decode opcode (operands ++ surplus) = decode opcode operands := by
  obtain ⟨i, hi, -⟩ := exists_writtenAs hop hle
  rcases hr : i.missingRegister? with _ | r
  · have haddressable := missingRegister?_eq_none.mp hr
    rw [(hi.append surplus).decode_of_addressable haddressable,
      hi.decode_of_addressable haddressable]
  · rw [(hi.append surplus).decode_of_missing hr, hi.decode_of_missing hr]

/-- What decodes, or fails for another reason than too few operands, does so with more operands as
    well. -/
theorem decode_of_prefix {more : List UInt8}
    (hwhole : ∀ code needed available, decode opcode operands ≠
      .error (.truncated code needed available))
    (hmore : operands <+: more) : decode opcode more = decode opcode operands := by
  obtain ⟨surplus, rfl⟩ := hmore
  rcases hop : Opcode.ofByte? opcode with _ | op
  · rw [decode_of_unknown hop, decode_of_unknown hop]
  · apply decode_append hop
    apply Nat.le_of_not_lt
    intro hshort
    exact hwhole _ _ _ (decode_of_short hop hshort)

end Microboard.Instruction
