import Wirble.Wvm.Lines
import Wirble.Wvm.Computes

/-! When the registers of a stream stay apart in the prototype that encodes it. -/

namespace Wirble

/-- Every word of a line passes the check of the verifier. -/
def WVMLine.Valid (regCount : BitVec 16) (constCount : BitVec 32) (line : WVMLine) : Prop :=
  ∀ word ∈ line.words, WVMInstrValid regCount constCount word

section Valid

variable {regCount scratch : BitVec 16} {constCount : BitVec 32}

/-- A word with one register below the count is valid. -/
theorem wvmEncodeOpR_valid {source : BitVec 16} (inside : source < regCount) :
    WVMInstrValid regCount constCount (wvmEncodeOpR .return source) := by
  refine instrValid_of_operands (wvmDecodeOp_opR .return source) ?_
  rw [show wvmOpcodeEncodings .return = .opR from rfl, OperandsInside, wvmDecodeRA_opR]
  exact inside

/-- An instruction with two registers below the count is valid. -/
theorem wvmEncodeOpRr_valid {op : WVMOpcode} (kind : wvmOpcodeEncodings op = .opRr)
    {dst source : BitVec 16} (written : dst < regCount) (inside : source < regCount) :
    WVMInstrValid regCount constCount (wvmEncodeOpRr op dst source) := by
  refine instrValid_of_operands (wvmDecodeOp_opRr op dst source) ?_
  rw [kind, OperandsInside, wvmDecodeRA_opRr, wvmDecodeRB_opRr]
  exact ⟨written, inside⟩

/-- An instruction with three registers below the count is valid. -/
theorem wvmEncodeOpRrr_valid {op : WVMOpcode} (kind : wvmOpcodeEncodings op = .opRrr)
    {dst lhs rhs : BitVec 16} (written : dst < regCount) (left : lhs < regCount)
    (right : rhs < regCount) :
    WVMInstrValid regCount constCount (wvmEncodeOpRrr op dst lhs rhs) := by
  refine instrValid_of_operands (wvmDecodeOp_opRrr op dst lhs rhs) ?_
  rw [kind, OperandsInside, wvmDecodeRA_opRrr, wvmDecodeRB_opRrr, wvmDecodeRC_opRrr]
  exact ⟨written, left, right⟩

/-- The opcodes that are found by a part of a name have three registers. -/
theorem wvmBinaryOf_encoding {name : String} {op : WVMOpcode} (found : wvmBinaryOf name = some op) :
    wvmOpcodeEncodings op = .opRrr := by
  have all : ∀ entry ∈ wvmEmitBin, wvmOpcodeEncodings entry.2 = .opRrr := by decide
  obtain ⟨entry, place, rfl⟩ := Option.map_eq_some_iff.mp found
  exact all entry (List.mem_of_find?_eq_some place)

/-- The line of an operand is valid and leaves it in a register below the count. -/
theorem wvmOperandLine_valid {count : Nat} {operand : MALOperand} {line : WVMLine}
    {reg : BitVec 16} (loaded : wvmOperandLine scratch count operand = some (line, reg))
    (last : scratch < regCount)
    (known : ∀ source, operand.payload = .reg source → wvmReg source < regCount)
    (pool : count + line.consts.length ≤ constCount.toNat) :
    line.Valid regCount constCount ∧ reg < regCount := by
  have limit := constCount.isLt
  have pooled : ∀ value, line = ⟨[wvmEncodeOpRConst .loadConst scratch (BitVec.ofNat 32 count)],
      [value]⟩ → line.Valid regCount constCount := by
    intro value same
    rw [same] at pool ⊢
    rw [WVMLine.Valid, List.forall_mem_singleton]
    refine instrValid_of_operands (wvmDecodeOp_opRImm32 .loadConst scratch _) ?_
    rw [show wvmOpcodeEncodings .loadConst = .opRConst from rfl, OperandsInside, wvmEncodeOpRConst,
      wvmDecodeRA_opRImm32, wvmDecodeConst_eq, ← wvmDecodeImm32_eq, wvmDecodeImm32_opRImm32]
    -- The constant is one of those that are counted.
    refine ⟨last, ?_⟩
    rw [BitVec.lt_def, BitVec.toNat_ofNat]
    simp only [List.length_singleton] at pool
    omega
  unfold wvmOperandLine at loaded
  cases payload : operand.payload with
  | reg source =>
    simp only [payload, Option.some.injEq, Prod.mk.injEq] at loaded
    rw [← loaded.1, ← loaded.2]
    exact ⟨List.forall_mem_nil _, known source payload⟩
  | immInt value =>
    simp only [payload] at loaded
    -- The scratch register is loaded, by one word or from the pool.
    split at loaded
    · simp only [Option.some.injEq, Prod.mk.injEq] at loaded
      rw [← loaded.1, ← loaded.2, WVMLine.Valid, List.forall_mem_singleton]
      refine ⟨instrValid_of_operands (wvmDecodeOp_opRImm32 .loadImm scratch _) ?_, last⟩
      rw [show wvmOpcodeEncodings .loadImm = .opRImm32 from rfl, OperandsInside,
        wvmDecodeRA_opRImm32]
      exact last
    · simp only [Option.some.injEq, Prod.mk.injEq] at loaded
      rw [← loaded.2]
      exact ⟨pooled _ loaded.1.symm, last⟩
  | immFloat value =>
    simp only [payload, Option.some.injEq, Prod.mk.injEq] at loaded
    rw [← loaded.2]
    exact ⟨pooled _ loaded.1.symm, last⟩
  | _ => simp [payload] at loaded

/-- A word behind a valid line gives a valid line if it is valid. -/
theorem WVMLine.Valid.push {line : WVMLine} {word : BitVec 64}
    (valid : line.Valid regCount constCount) (last : WVMInstrValid regCount constCount word) :
    (line.push word).Valid regCount constCount := by
  show ∀ word' ∈ line.words ++ [word], WVMInstrValid regCount constCount word'
  rw [List.forall_mem_append, List.forall_mem_singleton]
  exact ⟨valid, last⟩

/-- Two valid lines in a row are valid. -/
theorem WVMLine.Valid.append {line line' : WVMLine} (valid : line.Valid regCount constCount)
    (valid' : line'.Valid regCount constCount) :
    (line.append line').Valid regCount constCount := by
  show ∀ word ∈ line.words ++ line'.words, WVMInstrValid regCount constCount word
  rw [List.forall_mem_append]
  exact ⟨valid, valid'⟩

/-- The line of an instruction is valid if its registers are below the count. -/
theorem wvmInstLine_valid {count : Nat} {inst : TOSInst} {line : WVMLine}
    (made : wvmInstLine scratch count inst = some line) (last : scratch < regCount)
    (known : ∀ operand ∈ inst.operands, ∀ source, operand.payload = .reg source →
      wvmReg source < regCount)
    (pool : count + line.consts.length ≤ constCount.toNat) :
    line.Valid regCount constCount := by
  unfold wvmInstLine at made
  obtain ⟨desc, -, made⟩ := Option.bind_eq_some_iff.mp made
  dsimp only at made
  split at made
  -- A negation and an inversion.
  · split at made
    · rename_i type dst source shape
      obtain ⟨⟨loads, rhs⟩, loaded, same⟩ := Option.bind_eq_some_iff.mp made
      obtain rfl := Option.some.inj same
      rw [shape, List.forall_mem_cons, List.forall_mem_singleton] at known
      obtain ⟨valid, inside⟩ := wvmOperandLine_valid loaded last known.2 pool
      exact valid.push (wvmEncodeOpRr_valid rfl (known.1 dst rfl) inside)
    · cases made
  split at made
  -- A copy, which may be the load itself.
  · split at made
    · rename_i type dst source shape
      obtain ⟨⟨loads, rhs⟩, loaded, same⟩ := Option.bind_eq_some_iff.mp made
      rw [shape, List.forall_mem_cons, List.forall_mem_singleton] at known
      dsimp only at same
      split at same
      · obtain rfl := Option.some.inj same
        exact (wvmOperandLine_valid loaded last known.2 pool).1
      · obtain rfl := Option.some.inj same
        obtain ⟨valid, inside⟩ := wvmOperandLine_valid loaded last known.2 pool
        exact valid.push (wvmEncodeOpRr_valid rfl (known.1 dst rfl) inside)
    · cases made
  split at made
  -- A return.
  · split at made
    · rename_i source shape
      obtain ⟨⟨loads, value⟩, loaded, same⟩ := Option.bind_eq_some_iff.mp made
      obtain rfl := Option.some.inj same
      rw [shape, List.forall_mem_singleton] at known
      obtain ⟨valid, inside⟩ := wvmOperandLine_valid loaded last known pool
      exact valid.push (wvmEncodeOpR_valid inside)
    · cases made
  -- A binary operation on one operand is its negation or inversion.
  split at made
  · rename_i type dst first rest shape
    rw [shape, List.forall_mem_cons, List.forall_mem_cons] at known
    have written := known.1 dst rfl
    obtain ⟨⟨loads, lhs⟩, loaded, same⟩ := Option.bind_eq_some_iff.mp made
    dsimp only at same
    split at same
    · obtain rfl := Option.some.inj same
      obtain ⟨valid, inside⟩ := wvmOperandLine_valid loaded last known.2.1 pool
      exact valid.push (wvmEncodeOpRr_valid rfl written inside)
    split at same
    · obtain rfl := Option.some.inj same
      obtain ⟨valid, inside⟩ := wvmOperandLine_valid loaded last known.2.1 pool
      exact valid.push (wvmEncodeOpRr_valid rfl written inside)
    · -- The constants of the second operand come behind those of the first one.
      cases rest with
      | nil => cases same
      | cons second more =>
        obtain ⟨⟨loads', rhs⟩, loaded', same⟩ := Option.bind_eq_some_iff.mp same
        obtain ⟨op, found, same⟩ := Option.bind_eq_some_iff.mp same
        obtain rfl := Option.some.inj same
        -- Both operands' constants are counted.
        simp only [WVMLine.push, WVMLine.append, List.length_append] at pool
        obtain ⟨valid, left⟩ := wvmOperandLine_valid loaded last known.2.1
          (show count + loads.consts.length ≤ constCount.toNat by omega)
        obtain ⟨valid', right⟩ := wvmOperandLine_valid loaded' last
          (known.2.2 second List.mem_cons_self)
          (show count + loads.consts.length + loads'.consts.length ≤ constCount.toNat by omega)
        exact (valid.append valid').push
          (wvmEncodeOpRrr_valid (wvmBinaryOf_encoding found) written left right)
  · cases made

/-- The lines of instructions are valid if their registers are below the count. -/
theorem wvmLinesFrom_valid (last : scratch < regCount) {insts : List TOSInst}
    (known : ∀ inst ∈ insts, ∀ operand ∈ inst.operands, ∀ source, operand.payload = .reg source →
      wvmReg source < regCount) :
    ∀ {count : Nat} {lines : WVMLine}, wvmLinesFrom scratch count insts = some lines →
      count + lines.consts.length ≤ constCount.toNat → lines.Valid regCount constCount := by
  -- The induction is on the instructions, of which each one adds its constants.
  induction insts with
  | nil =>
    intro count lines made _
    obtain rfl := Option.some.inj made
    exact nofun
  | cons inst rest ih =>
    intro count lines made pool
    rw [List.forall_mem_cons] at known
    obtain ⟨line, first, made⟩ := Option.bind_eq_some_iff.mp made
    obtain ⟨others, later, same⟩ := Option.bind_eq_some_iff.mp made
    obtain rfl := Option.some.inj same
    -- The first line counts its constants, and the rest goes on from there.
    simp only [WVMLine.append, List.length_append] at pool
    have valid := wvmInstLine_valid first last known.1
      (show count + line.consts.length ≤ constCount.toNat by omega)
    exact valid.append (ih known.2 later (by omega))

end Valid

/-- The registers that a stream names. -/
def TOSProgram.registers (program : TOSProgram) : List (BitVec 32) :=
  (program.instructions.flatMap (·.operands)).filterMap fun operand =>
    match operand.payload with
    | .reg reg => some reg
    | _ => none

/-- The scratch register of a prototype is its last one. -/
def WVMPrototype.scratchReg (proto : WVMPrototype) : BitVec 16 := proto.regCount - 1

/-- The code of a prototype represents the registers of its stream one for one, below the count
and apart from the scratch register, and the verifier accepts it. -/
structure RegistersFaithful (program : TOSProgram) (proto : WVMPrototype) : Prop where
  represented : ∃ lines, wvmLinesFrom proto.scratchReg 0 program.instructions = some lines ∧
    proto.instrs = some lines.code ∧ proto.consts = some lines.consts
  distinct : ∀ reg ∈ program.registers, ∀ other ∈ program.registers, reg ≠ other →
    wvmReg reg ≠ wvmReg other
  below : ∀ reg ∈ program.registers, wvmReg reg < proto.regCount
  apart : ∀ reg ∈ program.registers, wvmReg reg ≠ proto.scratchReg
  verified : wvmVerifyPrototype proto = .ok ()

/-- Registers whose low sixteen bits tell them apart and are not one of the last two numbers. -/
structure RegistersFit (registers : List (BitVec 32)) : Prop where
  apart : ∀ reg ∈ registers, ∀ other ∈ registers,
    reg.toNat % 2 ^ 16 = other.toNat % 2 ^ 16 → reg = other
  below : ∀ reg ∈ registers, reg.toNat % 2 ^ 16 < 65534

/-- The register number that an instruction can hold is the number modulo 2^16. -/
theorem wvmReg_toNat (reg : BitVec 32) : (wvmReg reg).toNat = reg.toNat % 2 ^ 16 :=
  BitVec.toNat_setWidth 16 reg

section Faithful

variable {program : TOSProgram}

/-- The registers of a stream are those of its operands. -/
theorem TOSProgram.mem_registers {inst : TOSInst} (place : inst ∈ program.instructions)
    {operand : MALOperand} (inside : operand ∈ inst.operands) {source : BitVec 32}
    (payload : operand.payload = .reg source) : source ∈ program.registers := by
  refine List.mem_filterMap.mpr ⟨operand, List.mem_flatMap.mpr ⟨inst, place, inside⟩, ?_⟩
  rw [payload]

/-- No register of a stream is larger than the largest one. -/
theorem le_wvmMaxReg : ∀ reg ∈ program.registers, reg.toNat ≤ wvmMaxReg program := by
  intro reg member
  obtain ⟨operand, place, named⟩ := List.mem_filterMap.mp member
  -- The largest register is the maximum over all operands.
  have bound : operand.reg?.getD 0 ≤ wvmMaxReg program := le_foldl_max.2 operand place
  unfold MALOperand.reg? at bound
  split at named
  · rename_i source payload
    obtain rfl := Option.some.inj named
    rw [payload] at bound
    exact bound
  · cases named

/-- The register count leaves a scratch register above every register, or it is saturated. -/
theorem wvmComputeRegCount_cases (program : TOSProgram) :
    (wvmMaxReg program < 65534 ∧
        (wvmComputeRegCount program).toNat = wvmMaxReg program + 2 ∧
        (wvmComputeRegCount program - 1).toNat = wvmMaxReg program + 1) ∨
      65534 ≤ wvmMaxReg program ∧ (wvmComputeRegCount program).toNat = 65535 ∧
        (wvmComputeRegCount program - 1).toNat = 65534 := by
  -- Above the limit the count stays at its greatest value.
  by_cases large : wvmMaxReg program ≥ 65534
  · have count : wvmComputeRegCount program = 65535 := if_pos large
    rw [count]
    exact .inr ⟨large, rfl, rfl⟩
  · have count : (wvmComputeRegCount program).toNat = wvmMaxReg program + 2 := by
      rw [wvmComputeRegCount, if_neg large, BitVec.toNat_ofNat, Nat.mod_eq_of_lt (by omega)]
    refine .inl ⟨by omega, count, ?_⟩
    rw [BitVec.toNat_sub_of_le (by rw [BitVec.le_def, count]; simp), count]
    rfl

/-- Registers are below the count and apart from the scratch register exactly if their low bits
are small enough. -/
theorem wvmReg_inside_iff {reg : BitVec 32} (member : reg ∈ program.registers) :
    (wvmReg reg < wvmComputeRegCount program ∧ wvmReg reg ≠ wvmComputeRegCount program - 1) ↔
      reg.toNat % 2 ^ 16 < 65534 := by
  have bound := le_wvmMaxReg reg member
  rw [BitVec.lt_def, ne_eq, ← BitVec.toNat_inj, wvmReg_toNat]
  rcases wvmComputeRegCount_cases program with ⟨small, count, scratch⟩ | ⟨large, count, scratch⟩
  -- Below it the low bits are the register itself.
  · rw [count, scratch, Nat.mod_eq_of_lt (by omega)]
    omega
  · rw [count, scratch]
    omega

/-- A returned prototype is faithful exactly for registers that fit. -/
theorem registersFaithful_iff {name source : Option CString} {proto : WVMPrototype}
    (returned : wvmPrototypeFromTOS program name source = some proto) :
    RegistersFaithful program proto ↔ RegistersFit program.registers := by
  obtain ⟨lines, -, -, encoded⟩ := wvmPrototypeFromTOS_encoded returned
  have scratch : proto.scratchReg = wvmComputeRegCount program - 1 :=
    congrArg (· - 1) encoded.regCount
  constructor
  · -- Two registers that differ are not cut to the same number, and none is cut to the scratch
    -- register.
    intro faithful
    refine ⟨?_, ?_⟩
    · intro reg member other member' same
      apply Classical.byContradiction
      intro different
      apply faithful.distinct reg member other member' different
      rw [← BitVec.toNat_inj, wvmReg_toNat, wvmReg_toNat, same]
    · intro reg member
      have below := faithful.below reg member
      have apart := faithful.apart reg member
      rw [encoded.regCount] at below
      rw [scratch] at apart
      exact (wvmReg_inside_iff member).mp ⟨below, apart⟩
  · -- Below the limit nothing is cut, and the count exceeds every register by two.
    intro fit
    have inside : ∀ reg ∈ program.registers, wvmReg reg < wvmComputeRegCount program ∧
        wvmReg reg ≠ wvmComputeRegCount program - 1 :=
      fun reg member => (wvmReg_inside_iff member).mpr (fit.below reg member)
    have last : wvmComputeRegCount program - 1 < wvmComputeRegCount program := by
      rw [BitVec.lt_def]
      rcases wvmComputeRegCount_cases program with ⟨-, count, top⟩ | ⟨-, count, top⟩
      · omega
      · omega
    refine ⟨⟨lines, ?_, encoded.instrs, encoded.consts⟩, ?_, ?_, ?_, ?_⟩
    · rw [scratch]
      exact encoded.made
    · intro reg member other member' different same
      rw [← BitVec.toNat_inj, wvmReg_toNat, wvmReg_toNat] at same
      exact different (fit.apart reg member other member' same)
    · intro reg member
      rw [encoded.regCount]
      exact (inside reg member).1
    -- The scratch register is that of no value.
    · intro reg member
      rw [scratch]
      exact (inside reg member).2
    -- The code is there, and every word of its lines is valid.
    · refine wvmVerifyPrototype_ok_iff.mpr ⟨?_, ?_⟩
      · rw [encoded.instrs]
        exact Option.some_ne_none _
      · have counted : (proto.instrs.getD []).length = proto.instrCount.toNat := by
          rw [encoded.instrs, encoded.instrCount]
          rfl
        rw [wvmArray_eq counted, encoded.instrs, Option.getD_some, encoded.regCount, WVMLine.code]
        split
        · -- The halt has no operands.
          rw [List.forall_mem_singleton]
          have decoded : wvmDecodeOp WVMOpcode.halt.code = WVMOpcode.halt.ctorIdx := by decide
          exact instrValid_of_operands decoded trivial
        · apply wvmLinesFrom_valid last ?_ encoded.made
          · rw [encoded.constCount]
            omega
          · intro inst place operand among source payload
            exact (inside source (program.mem_registers place among payload)).1

/-- The encoder is faithful to the registers of a stream exactly if they fit, where a stream that
cannot be encoded has nothing to be faithful to. -/
theorem wvmPrototypeFromTOS_faithful_iff (program : TOSProgram) (name source : Option CString) :
    (wvmPrototypeFromTOS program name source = none ∨
        ∃ proto, wvmPrototypeFromTOS program name source = some proto ∧
          RegistersFaithful program proto) ↔
      (program.Encodable → RegistersFit program.registers) := by
  rw [← @wvmPrototypeFromTOS_some_iff program name source]
  cases returned : wvmPrototypeFromTOS program name source with
  | none => simp
  | some proto => simp [registersFaithful_iff returned]

end Faithful

/-- A stream that moves one register to another. -/
def tosMoveProgram (dst source : Nat) : TOSProgram where
  machine := none
  blocks := []
  instructions := [{
    id := 0, blockId := 0, order := 0
    desc := some ⟨0, "generic.mov.rr", [], none, 1⟩
    operands := [malOperandReg dst .i32, malOperandReg source .i32] }]
  orderKind := .input
  isFinalized := false

/-- Two registers with the same low bits become one. -/
theorem wvmPrototypeFromTOS_not_faithful :
    ¬ ∀ (program : TOSProgram) (name source : Option CString),
      wvmPrototypeFromTOS program name source = none ∨
        ∃ proto, wvmPrototypeFromTOS program name source = some proto ∧
          RegistersFaithful program proto := by
  intro claimed
  rcases claimed (tosMoveProgram 0 65536) none none with missing | ⟨proto, -, faithful⟩
  · have encoded : (wvmPrototypeFromTOS (tosMoveProgram 0 65536) none none).isSome = true := by
      decide
    rw [missing] at encoded
    cases encoded
  · -- The cast to sixteen bits maps both registers to the first one.
    have zero : 0#32 ∈ (tosMoveProgram 0 65536).registers := by decide
    have wide : 65536#32 ∈ (tosMoveProgram 0 65536).registers := by decide
    exact faithful.distinct _ zero _ wide (by decide) rfl

end Wirble
