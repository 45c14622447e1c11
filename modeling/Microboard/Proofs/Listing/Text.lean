import Microboard.Listing
import Microboard.Proofs.Text.Radix

/-!
# Listings as texts

A listing can be read off its text: a line ends with the first line break, its offset with the first
colon, and only an error has a bracket in its line. Mnemonics, operands and numbers are words, and
no two of them are written alike. Two listings with the same text are therefore equal: `text_inj`.
-/

namespace Microboard

open Text (Word append_cons_inj)

/-! ### Instructions -/

namespace Opcode

theorem find?_mnemonic (op : Opcode) : all.find? (·.mnemonic == op.mnemonic) = some op := by
  cases op with
  | jump condition => cases condition <;> rfl
  | _ => rfl

theorem mnemonic_inj {a b : Opcode} : a.mnemonic = b.mnemonic ↔ a = b := by
  constructor
  · intro h
    have hfound := find?_mnemonic a
    rw [h, find?_mnemonic] at hfound
    exact (Option.some.inj hfound).symm
  · rintro rfl
    rfl

theorem word_mnemonic (op : Opcode) : Word op.mnemonic := by
  have hall : ∀ op ∈ all, op.mnemonic.toList.all Char.isAlphanum = true := by decide
  have hword := hall op (List.mem_of_find?_eq_some (find?_mnemonic op))
  exact Text.word_of_all hword

end Opcode

namespace Instruction

theorem word_registerText (r : UInt8) : Word (registerText r) := by
  have hmark : Word "R" := Text.word_of_all (by decide)
  exact hmark.append (Text.word_decimal r.toNat)

theorem word_byteText (b : UInt8) : Word (byteText b) := by
  have hmark : Word "0x" := Text.word_of_all (by decide)
  exact hmark.append (Text.word_hexadecimal 2 b.toNat)

theorem registerText_inj {r s : UInt8} : registerText r = registerText s ↔ r = s := by
  rw [registerText, registerText, String.append_right_inj, Text.decimal_inj, UInt8.toNat_inj]

theorem byteText_inj {a b : UInt8} : byteText a = byteText b ↔ a = b := by
  rw [byteText, byteText, String.append_right_inj, Text.hexadecimal_inj, UInt8.toNat_inj]

theorem word_operandTexts (i : Instruction) : ∀ t ∈ i.operandTexts, Word t := by
  have hpin : ∀ pin : UInt8, Word ("GPIO" ++ Text.decimal pin.toNat) := by
    intro pin
    have hmark : Word "GPIO" := Text.word_of_all (by decide)
    exact hmark.append (Text.word_decimal pin.toNat)
  cases i with
  | loadImmediate r value =>
    exact List.forall_mem_cons.mpr
      ⟨word_registerText r, List.forall_mem_singleton.mpr (word_byteText value)⟩
  | storePin r pin | loadPin r pin =>
    exact List.forall_mem_cons.mpr
      ⟨word_registerText r, List.forall_mem_singleton.mpr (hpin pin)⟩
  | jump condition target => exact List.forall_mem_singleton.mpr (word_byteText target)
  | delay cycles => exact List.forall_mem_singleton.mpr (Text.word_decimal cycles.toNat)
  | _ => exact List.forall_mem_map.mpr fun r _ => word_registerText r

/-- The operation and the texts of the operands determine the instruction. -/
theorem eq_of_operandTexts {i j : Instruction} (hop : i.opcode = j.opcode)
    (htexts : i.operandTexts = j.operandTexts) : i = j := by
  -- Only two instructions of one operation are left, with operands of the same kinds.
  cases i <;> cases j <;> cases hop <;>
    simp_all only [operandTexts, registers, List.map_cons, List.map_nil, List.cons.injEq, and_true,
      registerText_inj, byteText_inj, String.append_right_inj, Text.decimal_inj, UInt8.toNat_inj,
      UInt16.toNat_inj]

theorem toList_text {i : Instruction} (h : i.operandTexts ≠ []) : i.text.toList =
    i.opcode.mnemonic.toList ++ ' ' :: (", ".intercalate i.operandTexts).toList := by
  unfold text
  split
  · next hnil => exact absurd hnil h
  · rw [String.append_assoc, String.toList_append, String.toList_append]
    rfl

theorem text_of_nil {i : Instruction} (h : i.operandTexts = []) : i.text = i.opcode.mnemonic := by
  unfold text
  rw [h]

/-- An instruction without operands is not written like one with operands. -/
theorem operandTexts_eq_nil {i j : Instruction} (h : i.text = j.text) (hi : i.operandTexts = []) :
    j.operandTexts = [] := by
  by_cases hj : j.operandTexts = []
  · exact hj
  · have hspace : ' ' ∈ i.opcode.mnemonic.toList := by
      rw [← text_of_nil hi, h, toList_text hj]
      exact List.mem_append_right _ List.mem_cons_self
    exact absurd hspace ((Opcode.word_mnemonic i.opcode).notMem rfl)

theorem text_inj {i j : Instruction} (h : i.text = j.text) : i = j := by
  by_cases hi : i.operandTexts = []
  · have hj := operandTexts_eq_nil h hi
    rw [text_of_nil hi, text_of_nil hj] at h
    exact eq_of_operandTexts (Opcode.mnemonic_inj.mp h) (hi.trans hj.symm)
  · have hj : j.operandTexts ≠ [] := fun hnil => hi (operandTexts_eq_nil h.symm hnil)
    have hlists := congrArg String.toList h
    rw [toList_text hi, toList_text hj] at hlists
    obtain ⟨hmnemonic, hoperands⟩ :=
      (Opcode.word_mnemonic i.opcode).append_cons_inj (Opcode.word_mnemonic j.opcode) rfl hlists
    have htexts : i.operandTexts = j.operandTexts :=
      Text.intercalate_inj (word_operandTexts i) (word_operandTexts j) hi hj
        (String.toList_inj.mp hoperands)
    exact eq_of_operandTexts (Opcode.mnemonic_inj.mp hmnemonic) htexts

/-- There is no other punctuation than the commas and the spaces: no line break, and no bracket. -/
theorem notMem_text (i : Instruction) {c : Char} (hc : c.isAlphanum = false) (hcomma : c ≠ ',')
    (hspace : c ≠ ' ') : c ∉ i.text.toList := by
  have hmnemonic : c ∉ i.opcode.mnemonic.toList := (Opcode.word_mnemonic i.opcode).notMem hc
  by_cases hoperands : i.operandTexts = []
  · rw [text_of_nil hoperands]
    exact hmnemonic
  · rw [toList_text hoperands, List.mem_append, List.mem_cons]
    rintro (hfront | hmark | htexts)
    · exact hmnemonic hfront
    · exact hspace hmark
    · exact Text.notMem_intercalate (word_operandTexts i) hc hcomma hspace htexts

theorem lineBreak_notMem_text (i : Instruction) : '\n' ∉ i.text.toList :=
  i.notMem_text rfl (by decide) (by decide)

end Instruction

/-! ### Errors -/

namespace RecordError

theorem toList_message_truncated (opcode : UInt8) (needed available : Nat) :
    (truncated opcode needed available).message.toList = "opcode 0x".toList ++
      ((Text.hexadecimal 2 opcode.toNat).toList ++ ' ' :: ("needs ".toList ++
        ((Text.decimal needed).toList ++ ' ' :: ("operand bytes, found ".toList ++
          (Text.decimal available).toList)))) := by
  unfold message messageAt
  simp only [String.append_empty, String.toList_append, List.append_assoc]
  rfl

theorem toList_message_invalidRegister (opcode register : UInt8) :
    (invalidRegister opcode register).message.toList = "opcode 0x".toList ++
      ((Text.hexadecimal 2 opcode.toNat).toList ++ ' ' :: ("names register R".toList ++
        (Text.decimal register.toNat).toList)) := by
  unfold message messageAt
  simp only [String.append_empty, String.toList_append, List.append_assoc]
  rfl

theorem toList_message_unknownOpcode (opcode : UInt8) :
    (unknownOpcode opcode).message.toList = "unknown opcode 0x".toList ++
      (Text.hexadecimal 2 opcode.toNat).toList := by
  unfold message messageAt
  simp only [String.append_empty, String.toList_append]

/-- The opcode is read off the message up to the next space. -/
theorem opcode_inj {o p : UInt8} {r s : List Char}
    (h : "opcode 0x".toList ++ ((Text.hexadecimal 2 o.toNat).toList ++ ' ' :: r) =
      "opcode 0x".toList ++ ((Text.hexadecimal 2 p.toNat).toList ++ ' ' :: s)) : o = p ∧ r = s := by
  obtain ⟨hdigits, hrest⟩ := (Text.word_hexadecimal 2 o.toNat).append_cons_inj
    (Text.word_hexadecimal 2 p.toNat) rfl (List.append_cancel_left h)
  exact ⟨UInt8.toNat_inj.mp (Text.hexadecimal_inj.mp hdigits), hrest⟩

/-- All messages but that of an unknown opcode begin with the same word. -/
theorem message_unknownOpcode_ne (o : UInt8) {e : RecordError} (he : ∀ p, e ≠ .unknownOpcode p) :
    (unknownOpcode o).message ≠ e.message := by
  intro h
  have hlists := congrArg String.toList h
  rw [toList_message_unknownOpcode] at hlists
  cases e with
  | unknownOpcode p => exact he p rfl
  | truncated p needed available =>
    rw [toList_message_truncated] at hlists
    cases (List.cons.inj hlists).1
  | invalidRegister p register =>
    rw [toList_message_invalidRegister] at hlists
    cases (List.cons.inj hlists).1

/-- One record needs operands, and the other names a register. -/
theorem message_truncated_ne (o p : UInt8) (needed available : Nat) (register : UInt8) :
    (truncated o needed available).message ≠ (invalidRegister p register).message := by
  intro h
  have hlists := congrArg String.toList h
  rw [toList_message_truncated, toList_message_invalidRegister] at hlists
  have hbehind := (opcode_inj hlists).2
  cases (List.cons.inj (List.cons.inj hbehind).2).1

theorem message_inj {e f : RecordError} (h : e.message = f.message) : e = f := by
  have hlists := congrArg String.toList h
  cases e with
  | unknownOpcode o =>
    cases f with
    | unknownOpcode p =>
      rw [toList_message_unknownOpcode, toList_message_unknownOpcode] at hlists
      have hdigits := String.toList_inj.mp (List.append_cancel_left hlists)
      rw [UInt8.toNat_inj.mp (Text.hexadecimal_inj.mp hdigits)]
    | truncated p needed available => exact absurd h (message_unknownOpcode_ne o nofun)
    | invalidRegister p register => exact absurd h (message_unknownOpcode_ne o nofun)
  | truncated o needed available =>
    cases f with
    | unknownOpcode p => exact absurd h.symm (message_unknownOpcode_ne p nofun)
    | truncated p needed' available' =>
      rw [toList_message_truncated, toList_message_truncated] at hlists
      obtain ⟨hop, hbehind⟩ := opcode_inj hlists
      obtain ⟨hneeded, hfound⟩ := (Text.word_decimal needed).append_cons_inj
        (Text.word_decimal needed') rfl (List.append_cancel_left hbehind)
      have havailable := String.toList_inj.mp (List.append_cancel_left hfound)
      rw [hop, Text.decimal_inj.mp hneeded, Text.decimal_inj.mp havailable]
    | invalidRegister p register => exact absurd h (message_truncated_ne o p _ _ register)
  | invalidRegister o register =>
    cases f with
    | unknownOpcode p => exact absurd h.symm (message_unknownOpcode_ne p nofun)
    | truncated p needed available => exact absurd h.symm (message_truncated_ne p o _ _ register)
    | invalidRegister p register' =>
      rw [toList_message_invalidRegister, toList_message_invalidRegister] at hlists
      obtain ⟨hop, hbehind⟩ := opcode_inj hlists
      have hregister := String.toList_inj.mp (List.append_cancel_left hbehind)
      rw [hop, UInt8.toNat_inj.mp (Text.decimal_inj.mp hregister)]

theorem lineBreak_notMem_message (e : RecordError) : '\n' ∉ e.message.toList := by
  have hhex (opcode : UInt8) : '\n' ∉ (Text.hexadecimal 2 opcode.toNat).toList :=
    (Text.word_hexadecimal 2 opcode.toNat).notMem rfl
  have hdecimal (n : Nat) : '\n' ∉ (Text.decimal n).toList := (Text.word_decimal n).notMem rfl
  cases e with
  | unknownOpcode o =>
    rw [toList_message_unknownOpcode, List.mem_append, not_or]
    exact ⟨by decide, hhex o⟩
  | truncated o needed available =>
    rw [toList_message_truncated]
    simp only [List.mem_append, List.mem_cons, not_or]
    exact ⟨by decide, hhex o, by decide, by decide, hdecimal needed, by decide, by decide,
      hdecimal available⟩
  | invalidRegister o register =>
    rw [toList_message_invalidRegister]
    simp only [List.mem_append, List.mem_cons, not_or]
    exact ⟨by decide, hhex o, by decide, by decide, hdecimal register.toNat⟩

end RecordError

/-! ### Lines -/

namespace Listing

theorem toList_line (offset : Nat) (content : String) : (line offset content).toList =
    "0x".toList ++ ((Text.hexadecimal 4 offset).toList ++
      ':' :: ' ' :: (content.toList ++ ['\n'])) := by
  unfold line
  simp only [String.toList_append, List.append_assoc]
  rfl

/-- The first line of a text is known, and so is the text behind it. -/
theorem line_append_inj {o p : Nat} {c d r s : String} (hc : '\n' ∉ c.toList)
    (hd : '\n' ∉ d.toList) (h : line o c ++ r = line p d ++ s) : o = p ∧ c = d ∧ r = s := by
  have hlists := congrArg String.toList h
  rw [String.toList_append, String.toList_append, toList_line, toList_line] at hlists
  simp only [List.append_assoc, List.cons_append, List.nil_append] at hlists
  obtain ⟨hoffset, hbehind⟩ := (Text.word_hexadecimal 4 o).append_cons_inj
    (Text.word_hexadecimal 4 p) rfl (List.append_cancel_left hlists)
  obtain ⟨hcontent, hrest⟩ := append_cons_inj hc hd (List.cons.inj hbehind).2
  exact ⟨Text.hexadecimal_inj.mp hoffset, String.toList_inj.mp hcontent,
    String.toList_inj.mp hrest⟩

theorem line_append_ne_empty (o : Nat) (c r : String) : line o c ++ r ≠ "" := by
  intro h
  have hlists := congrArg String.toList h
  rw [String.toList_append, toList_line] at hlists
  cases hlists

/-- How the record that ended a walk is shown between the offset and the end of the line. -/
def stopText (e : RecordError) : String :=
  "<" ++ e.message ++ ">"

theorem toList_stopText (e : RecordError) :
    (stopText e).toList = '<' :: (e.message.toList ++ ['>']) := by
  unfold stopText
  rw [String.toList_append, String.toList_append]
  rfl

theorem lineBreak_notMem_stopText (e : RecordError) : '\n' ∉ (stopText e).toList := by
  rw [toList_stopText, List.mem_cons, List.mem_append, not_or, not_or]
  exact ⟨by decide, e.lineBreak_notMem_message, by decide⟩

theorem stopText_inj {e f : RecordError} (h : stopText e = stopText f) : e = f := by
  have hlists := congrArg String.toList h
  rw [toList_stopText, toList_stopText] at hlists
  have hmessage := List.append_cancel_right (List.cons.inj hlists).2
  exact RecordError.message_inj (String.toList_inj.mp hmessage)

/-- A line of an instruction is no line of an error. -/
theorem text_ne_stopText (i : Instruction) (e : RecordError) : i.text ≠ stopText e := by
  intro h
  have hbracket : '<' ∈ i.text.toList := by
    rw [h, toList_stopText]
    exact List.mem_cons_self
  exact i.notMem_text rfl (by decide) (by decide) hbracket

/-! ### Listings -/

theorem text_cons (o : Nat) (i : Instruction) (entries : List (Nat × Instruction))
    (stop : Option (Nat × RecordError)) :
    text ⟨(o, i) :: entries, stop⟩ = line o i.text ++ text ⟨entries, stop⟩ :=
  String.join_cons

theorem text_stopped (o : Nat) (e : RecordError) :
    text ⟨[], some (o, e)⟩ = line o (stopText e) ++ "" :=
  String.join_cons

/-- Where one listing goes on with an instruction, the other does. -/
theorem text_nil_ne_cons (stop stop' : Option (Nat × RecordError)) (o : Nat) (i : Instruction)
    (entries : List (Nat × Instruction)) :
    text ⟨[], stop⟩ ≠ text ⟨(o, i) :: entries, stop'⟩ := by
  intro h
  rw [text_cons] at h
  cases stop with
  | none => exact line_append_ne_empty o i.text _ h.symm
  | some s =>
    obtain ⟨p, e⟩ := s
    rw [text_stopped] at h
    exact text_ne_stopText i e
      (line_append_inj (lineBreak_notMem_stopText e) i.lineBreak_notMem_text h).2.1.symm

theorem stop_inj {stop stop' : Option (Nat × RecordError)}
    (h : text ⟨[], stop⟩ = text ⟨[], stop'⟩) : stop = stop' := by
  cases stop with
  | none =>
    cases stop' with
    | none => rfl
    | some s' =>
      obtain ⟨o', e'⟩ := s'
      rw [text_stopped] at h
      exact absurd h.symm (line_append_ne_empty o' (stopText e') "")
  | some s =>
    obtain ⟨o, e⟩ := s
    rw [text_stopped] at h
    cases stop' with
    | none => exact absurd h (line_append_ne_empty o (stopText e) "")
    | some s' =>
      obtain ⟨o', e'⟩ := s'
      rw [text_stopped] at h
      obtain ⟨hoffset, htext, -⟩ :=
        line_append_inj (lineBreak_notMem_stopText e) (lineBreak_notMem_stopText e') h
      rw [hoffset, stopText_inj htext]

/-- The text of a listing determines it, whatever the listing is of. -/
theorem text_inj {l m : Listing} (h : l.text = m.text) : l = m := by
  obtain ⟨entries, stop⟩ := l
  obtain ⟨entries', stop'⟩ := m
  -- Line by line.
  induction entries generalizing entries' with
  | nil =>
    cases entries' with
    | nil => rw [stop_inj h]
    | cons entry' entries' => exact absurd h (text_nil_ne_cons stop stop' _ _ entries')
  | cons entry entries ih =>
    cases entries' with
    | nil => exact absurd h.symm (text_nil_ne_cons stop' stop _ _ entries)
    | cons entry' entries' =>
      obtain ⟨o, i⟩ := entry
      obtain ⟨o', i'⟩ := entry'
      rw [text_cons, text_cons] at h
      obtain ⟨hoffset, htext, hrest⟩ :=
        line_append_inj i.lineBreak_notMem_text i'.lineBreak_notMem_text h
      have hbehind := ih entries' hrest
      rw [Listing.mk.injEq] at hbehind
      rw [hoffset, Instruction.text_inj htext, hbehind.1, hbehind.2]

/-- Images with the same printed listing have the same listing: the same offsets and instructions,
    and the same error at the same offset. -/
theorem ofImage_eq_of_text_eq {a b : List UInt8} (h : (ofImage a).text = (ofImage b).text) :
    ofImage a = ofImage b :=
  text_inj h

/-- A jump and a record with an unknown opcode. The operands of that record are not in the text, and
    not in the listing either. -/
theorem ofImage_eq_of_text_eq_stopped :
    (ofImage [0x04, 1, 2, 0x42, 0]).text = (ofImage [0x04, 1, 2, 0x42, 9, 9]).text ∧
      ofImage [0x04, 1, 2, 0x42, 0] = ofImage [0x04, 1, 2, 0x42, 9, 9] := by
  have htext : (ofImage [0x04, 1, 2, 0x42, 0]).text = (ofImage [0x04, 1, 2, 0x42, 9, 9]).text := by
    decide +kernel
  exact ⟨htext, ofImage_eq_of_text_eq htext⟩

end Listing

end Microboard
