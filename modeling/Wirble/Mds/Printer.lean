import Wirble.Mds.Machine

/-! The two encoders of machine programs, and the decoder of an instruction. -/

namespace Wirble

/-- A growing buffer, which never holds more bytes than it has room for. -/
structure MDSBuffer where
  bytes : List Byte
  capacity : Nat
  fits : bytes.length ≤ capacity

/-- The eight bytes that the buffer encoder writes for an operand. -/
def mdsBufferPayload (operand : MALOperand) : BitVec 64 :=
  match operand.payload with
  | .reg reg => reg.setWidth 64
  | .immInt value => value
  | .block id => id.setWidth 64
  | _ => 0

/-- The eight bytes that the instruction encoder writes for an operand. -/
def mdsInstructionPayload (operand : MALOperand) : BitVec 64 :=
  match operand.payload with
  | .reg reg => reg.setWidth 64
  | .immInt value => value
  | _ => 0

/-- Payloads are copied from memory, lowest byte first. -/
def mdsPayloadBytes (payload : BitVec 64) : List Byte := Bytes.encode 8 payload.toNat

/-- The bytes that the buffer encoder writes for an instruction. -/
def mdsBufferBytes (inst : MDSInst) : List Byte :=
  (inst.desc.bind (·.fixedByte)).getD 0 ::
    inst.operands.flatMap fun operand => mdsPayloadBytes (mdsBufferPayload operand)

/-- Every operand takes eight bytes. -/
theorem length_payloads (payload : MALOperand → BitVec 64) (operands : List MALOperand) :
    (operands.flatMap fun operand => mdsPayloadBytes (payload operand)).length =
      8 * operands.length := by
  -- Every payload takes eight bytes.
  induction operands with
  | nil => rfl
  | cons operand operands ih =>
    rw [List.flatMap_cons, List.length_append, ih, List.length_cons, mdsPayloadBytes,
      Bytes.length_encode]
    omega

/-- An instruction takes a byte for its opcode and eight for every operand. -/
theorem length_mdsBufferBytes (inst : MDSInst) :
    (mdsBufferBytes inst).length = 1 + 8 * inst.operands.length := by
  rw [mdsBufferBytes, List.length_cons, length_payloads]
  omega

/-- Append an instruction, growing the buffer to twice what is needed if it is too small. -/
def mdsBufferAppend (buffer : MDSBuffer) (inst : MDSInst) : MDSBuffer where
  bytes := buffer.bytes ++ mdsBufferBytes inst
  capacity :=
    let need := buffer.bytes.length + 1 + inst.operands.length * 8
    if buffer.capacity < need then need * 2 else buffer.capacity
  fits := by
    have fits := buffer.fits
    rw [List.length_append, length_mdsBufferBytes]
    dsimp only
    split <;> omega

/-- All instructions of a program, appended to an empty buffer in order. -/
def mdsEmitBuffer (program : MDSProgram) : List Byte :=
  (program.insts.foldl mdsBufferAppend ⟨[], 0, Nat.le_refl 0⟩).bytes

/-- The bytes of one instruction, which are none where its descriptor is null. -/
def mdsEncodeInstruction (desc : Option MDSInstruction) (operands : List MALOperand) :
    Option (List Byte) :=
  desc.map fun instr =>
    instr.fixedByte.getD 0 ::
      operands.flatMap fun operand => mdsPayloadBytes (mdsInstructionPayload operand)

/-- The instruction whose identifier is the first byte. -/
def mdsDecodeInstruction (machine : MDSMachine) (bytes : List Byte) : Option MDSInstruction :=
  match bytes with
  | [] => none
  | first :: _ =>
    if machine.instructions.length ≤ first.toNat then none else machine.instrById[first.toNat]?

/-- The buffer holds the instructions' bytes one after the other. -/
theorem mdsBufferAppend_foldl (insts : List MDSInst) (buffer : MDSBuffer) :
    (insts.foldl mdsBufferAppend buffer).bytes = buffer.bytes ++ insts.flatMap mdsBufferBytes := by
  induction insts generalizing buffer with
  | nil => simp
  | cons inst insts ih =>
    rw [List.foldl_cons, ih, List.flatMap_cons, ← List.append_assoc]
    rfl

/-- The buffer holds the bytes of one instruction after the other. -/
theorem mdsEmitBuffer_eq (program : MDSProgram) :
    mdsEmitBuffer program = program.insts.flatMap mdsBufferBytes := by
  rw [mdsEmitBuffer, mdsBufferAppend_foldl, List.nil_append]

/-- The two payloads of an operand differ just for blocks other than block zero. -/
theorem mdsPayloads_agree_iff (operand : MALOperand) :
    mdsPayloadBytes (mdsBufferPayload operand) = mdsPayloadBytes (mdsInstructionPayload operand) ↔
      ∀ id, operand.payload = .block id → id = 0 := by
  rw [mdsPayloadBytes, mdsPayloadBytes, Bytes.encode_toNat_inj 8]
  cases kind : operand.payload with
  | block id =>
    -- Block zero is written as zero both ways, and no other block is.
    have narrow : id.setWidth 64 = 0#64 ↔ id = 0#32 := by
      constructor
      · intro zero
        have small := id.isLt
        have value : (id.setWidth 64).toNat = 0 := by rw [zero]; rfl
        rw [BitVec.toNat_setWidth, Nat.mod_eq_of_lt (by omega)] at value
        exact BitVec.eq_of_toNat_eq value
      · rintro rfl
        rfl
    simp [mdsBufferPayload, mdsInstructionPayload, kind, narrow]
  | _ => simp [mdsBufferPayload, mdsInstructionPayload, kind]

/-- Every instruction has a descriptor with an encoding. -/
def MDSProgram.Encoded (program : MDSProgram) : Prop :=
  ∀ inst ∈ program.insts, ∃ desc, inst.desc = some desc ∧ desc.fixedByte.isSome = true

/-- The bytes of the instructions one after the other. -/
def mdsEncodeProgram (program : MDSProgram) : List Byte :=
  program.insts.flatMap fun inst => (mdsEncodeInstruction inst.desc inst.operands).getD []

/-- The two encoders agree on precisely the programs whose block operands all name block zero. -/
theorem mdsEncoders_agree_iff (program : MDSProgram) (encoded : program.Encoded) :
    mdsEmitBuffer program = mdsEncodeProgram program ↔
      ∀ inst ∈ program.insts, ∀ operand ∈ inst.operands, ∀ id,
        operand.payload = .block id → id = 0 := by
  have parts : ∀ inst ∈ program.insts,
      (mdsEncodeInstruction inst.desc inst.operands).getD [] =
        (inst.desc.bind (·.fixedByte)).getD 0 ::
          inst.operands.flatMap fun operand => mdsPayloadBytes (mdsInstructionPayload operand) := by
    intro inst member
    obtain ⟨desc, present, -⟩ := encoded inst member
    rw [present]
    rfl
  -- Both write as many bytes for one instruction.
  have lengths : ∀ inst ∈ program.insts, (mdsBufferBytes inst).length =
      ((mdsEncodeInstruction inst.desc inst.operands).getD []).length := by
    intro inst member
    rw [parts inst member, length_mdsBufferBytes, List.length_cons, length_payloads]
    omega
  rw [mdsEmitBuffer_eq, mdsEncodeProgram, Bytes.flatMap_eq_iff lengths]
  refine forall₂_congr fun inst member => ?_
  -- The first bytes are the same, so the instructions differ in their payloads only.
  rw [parts inst member, mdsBufferBytes, List.cons_eq_cons,
    Bytes.flatMap_eq_iff fun operand _ => by rw [mdsPayloadBytes, mdsPayloadBytes,
      Bytes.length_encode, Bytes.length_encode]]
  simp only [true_and, mdsPayloads_agree_iff]

/-- A program of one return instruction. -/
def mdsReturnProgram (operand : MALOperand) : MDSProgram :=
  ⟨none, [⟨0, [⟨some (mdsInitInstruction 20 "generic.ret" mdsRetOps), [operand]⟩], []⟩]⟩

/-- The return instruction has an encoding. -/
theorem mdsReturnProgram_encoded (operand : MALOperand) : (mdsReturnProgram operand).Encoded := by
  intro inst member
  obtain rfl := List.mem_singleton.mp member
  exact ⟨_, rfl, rfl⟩

/-- A register operand has one encoding. -/
theorem mdsEncoders_agree_register :
    mdsEmitBuffer (mdsReturnProgram (malOperandReg 7 .i32)) =
      mdsEncodeProgram (mdsReturnProgram (malOperandReg 7 .i32)) := by
  refine (mdsEncoders_agree_iff _ (mdsReturnProgram_encoded _)).mpr ?_
  -- The only operand is a register.
  intro inst member operand inside id block
  obtain rfl := List.mem_singleton.mp member
  obtain rfl := List.mem_singleton.mp inside
  cases block

/-- The buffer encoder writes the identifier of a block, the instruction encoder writes zero. -/
theorem mdsEncoders_not_agree :
    ¬ ∀ program : MDSProgram, program.Encoded →
      mdsEmitBuffer program = mdsEncodeProgram program := by
  intro agree
  -- Block one is written as one by the buffer encoder.
  have same := agree (mdsReturnProgram (malOperandBlock 1)) (mdsReturnProgram_encoded _)
  revert same
  decide

end Wirble
