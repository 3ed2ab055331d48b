import Wirble.Wvm.Encode
import Wirble.Library.Fields

/-! Emitted instructions decode to what they were encoded from, and pass the verifier. -/

namespace Wirble

open Fields

/-- The table of opcodes is in the order of their numbers. -/
theorem wvmOpcodes_ctorIdx (op : WVMOpcode) : wvmOpcodes[op.ctorIdx]? = some op := by
  cases op <;> rfl

/-- Every opcode fits into a byte. -/
theorem ctorIdx_lt (op : WVMOpcode) : op.ctorIdx < 2 ^ 8 := by
  cases op <;> decide

/-- An opcode takes the lowest byte only. -/
theorem clear_code (op : WVMOpcode) {low high : Nat} (above : 8 ≤ low) :
    Clear op.code low high :=
  clear_ofNat (Nat.lt_of_lt_of_le (ctorIdx_lt op) (Nat.pow_le_pow_right (by omega) above))

section Fields

variable (word : BitVec 64)

/-- The first register is the 16 bits from bit 8. -/
theorem wvmDecodeRA_eq : wvmDecodeRA word = word.extractLsb' 8 16 :=
  setWidth_shift_mask (by decide)

/-- The second register is the 16 bits from bit 24. -/
theorem wvmDecodeRB_eq : wvmDecodeRB word = word.extractLsb' 24 16 :=
  setWidth_shift_mask (by decide)

/-- The third register is the 16 bits from bit 40. -/
theorem wvmDecodeRC_eq : wvmDecodeRC word = word.extractLsb' 40 16 :=
  setWidth_shift_mask (by decide)

/-- The immediate is the 32 bits from bit 24. -/
theorem wvmDecodeImm32_eq : wvmDecodeImm32 word = word.extractLsb' 24 32 :=
  setWidth_shift_mask (by decide)

/-- The constant index is the 32 bits from bit 24. -/
theorem wvmDecodeConst_eq : wvmDecodeConst word = word.extractLsb' 24 32 :=
  setWidth_shift_mask (by decide)

/-- The opcode is the lowest byte. -/
theorem wvmDecodeOp_eq : wvmDecodeOp word = (word.extractLsb' 0 8).toNat := by
  -- Masking the low byte is taking it.
  rw [wvmDecodeOp, BitVec.toNat_and, BitVec.extractLsb'_toNat]
  exact Nat.and_two_pow_sub_one_eq_mod word.toNat 8

/-- A word whose low byte is that of an opcode is an instruction of that opcode. -/
theorem wvmDecodeOp_code {op : WVMOpcode} {rest : BitVec 64} (clear : Clear rest 0 8) :
    wvmDecodeOp (op.code ||| rest) = op.ctorIdx := by
  rw [wvmDecodeOp_eq, extract_or_left clear, WVMOpcode.code, BitVec.extractLsb'_toNat,
    BitVec.toNat_ofNat]
  have bound := ctorIdx_lt op
  omega

end Fields

section Encode

variable (op : WVMOpcode) (a b c : BitVec 16) (imm : BitVec 32)

/-- The opcode of an instruction with one register is read back. -/
theorem wvmDecodeOp_opR : wvmDecodeOp (wvmEncodeOpR op a) = op.ctorIdx :=
  wvmDecodeOp_code (clear_place_below a (by omega))

/-- Its register is read back. -/
theorem wvmDecodeRA_opR : wvmDecodeRA (wvmEncodeOpR op a) = a := by
  show wvmDecodeRA (op.code ||| place 8 a) = a
  rw [wvmDecodeRA_eq, extract_or_right (clear_code op (by omega)), extract_place a (by omega)]

/-- The opcode of an instruction with two registers is read back. -/
theorem wvmDecodeOp_opRr : wvmDecodeOp (wvmEncodeOpRr op a b) = op.ctorIdx := by
  show wvmDecodeOp (op.code ||| place 8 a ||| place 24 b) = op.ctorIdx
  rw [BitVec.or_assoc]
  exact wvmDecodeOp_code ((clear_place_below a (by omega)).or (clear_place_below b (by omega)))

/-- The first of two registers is read back. -/
theorem wvmDecodeRA_opRr : wvmDecodeRA (wvmEncodeOpRr op a b) = a := by
  show wvmDecodeRA (op.code ||| place 8 a ||| place 24 b) = a
  rw [wvmDecodeRA_eq, extract_or_left (clear_place_below b (by omega)),
    extract_or_right (clear_code op (by omega)), extract_place a (by omega)]

/-- The second of two registers is read back. -/
theorem wvmDecodeRB_opRr : wvmDecodeRB (wvmEncodeOpRr op a b) = b := by
  show wvmDecodeRB (op.code ||| place 8 a ||| place 24 b) = b
  rw [wvmDecodeRB_eq, extract_or_right ((clear_code op (by omega)).or
    (clear_place_above a (by omega))), extract_place b (by omega)]

/-- The opcode of an instruction with three registers is read back. -/
theorem wvmDecodeOp_opRrr : wvmDecodeOp (wvmEncodeOpRrr op a b c) = op.ctorIdx := by
  show wvmDecodeOp (op.code ||| place 8 a ||| place 24 b ||| place 40 c) = op.ctorIdx
  rw [BitVec.or_assoc, BitVec.or_assoc]
  exact wvmDecodeOp_code ((clear_place_below a (by omega)).or
    ((clear_place_below b (by omega)).or (clear_place_below c (by omega))))

/-- The first of three registers is read back. -/
theorem wvmDecodeRA_opRrr : wvmDecodeRA (wvmEncodeOpRrr op a b c) = a := by
  show wvmDecodeRA (op.code ||| place 8 a ||| place 24 b ||| place 40 c) = a
  rw [wvmDecodeRA_eq, extract_or_left (clear_place_below c (by omega)),
    extract_or_left (clear_place_below b (by omega)), extract_or_right (clear_code op (by omega)),
    extract_place a (by omega)]

/-- The second of three registers is read back. -/
theorem wvmDecodeRB_opRrr : wvmDecodeRB (wvmEncodeOpRrr op a b c) = b := by
  show wvmDecodeRB (op.code ||| place 8 a ||| place 24 b ||| place 40 c) = b
  rw [wvmDecodeRB_eq, extract_or_left (clear_place_below c (by omega)),
    extract_or_right ((clear_code op (by omega)).or (clear_place_above a (by omega))),
    extract_place b (by omega)]

/-- The third of three registers is read back. -/
theorem wvmDecodeRC_opRrr : wvmDecodeRC (wvmEncodeOpRrr op a b c) = c := by
  show wvmDecodeRC (op.code ||| place 8 a ||| place 24 b ||| place 40 c) = c
  rw [wvmDecodeRC_eq, extract_or_right (((clear_code op (by omega)).or
    (clear_place_above a (by omega))).or (clear_place_above b (by omega))),
    extract_place c (by omega)]

/-- The opcode of an instruction with an immediate is read back. -/
theorem wvmDecodeOp_opRImm32 : wvmDecodeOp (wvmEncodeOpRImm32 op a imm) = op.ctorIdx := by
  show wvmDecodeOp (op.code ||| place 8 a ||| place 24 imm) = op.ctorIdx
  rw [BitVec.or_assoc]
  exact wvmDecodeOp_code ((clear_place_below a (by omega)).or (clear_place_below imm (by omega)))

/-- The register beside an immediate is read back. -/
theorem wvmDecodeRA_opRImm32 : wvmDecodeRA (wvmEncodeOpRImm32 op a imm) = a := by
  show wvmDecodeRA (op.code ||| place 8 a ||| place 24 imm) = a
  rw [wvmDecodeRA_eq, extract_or_left (clear_place_below imm (by omega)),
    extract_or_right (clear_code op (by omega)), extract_place a (by omega)]

/-- The immediate is read back. -/
theorem wvmDecodeImm32_opRImm32 : wvmDecodeImm32 (wvmEncodeOpRImm32 op a imm) = imm := by
  show wvmDecodeImm32 (op.code ||| place 8 a ||| place 24 imm) = imm
  rw [wvmDecodeImm32_eq, extract_or_right ((clear_code op (by omega)).or
    (clear_place_above a (by omega))), extract_place imm (by omega)]

end Encode

end Wirble
