import Wirble.Wvm.Compiled

/-! What executing compiled integer code computes in the registers. -/

namespace Wirble

/-- An instruction whose registers are below the largest numbers, and whose immediates are integers
of 32 bits. -/
structure MALInst.Small (inst : MALInst) : Prop where
  operands : ∀ operand ∈ inst.operands, (∃ reg, operand.payload = .reg reg ∧ reg.toNat < 65534) ∨
    ∃ value, operand.payload = .immInt value ∧ -2 ^ 31 ≤ value.toInt ∧ value.toInt ≤ 2 ^ 31 - 1
  dst : inst.dst = malInvalidReg ∨ inst.dst < 65534

/-- The number of words that an instruction is emitted as. -/
def wvmWords (inst : MALInst) : Nat := inst.operands.countP mdsIsImmediate + 1

/-- The number of words before the instruction at a place. -/
def wvmOffset (insts : List MALInst) (place : Nat) : Nat := ((insts.take place).map wvmWords).sum

/-- The registers of the stream, which are all but the scratch register. -/
def TOSRegister (proto : WVMPrototype) (reg : Nat) : Prop := reg + 1 < proto.regCount.toNat

/-- The words of all registers that hold a value represent it. -/
def WVMHolds (proto : WVMPrototype) (stack : Nat → BitVec 64) (regs : Nat → Option MALValue) :
    Prop :=
  ∀ reg value, TOSRegister proto reg → regs reg = some value → stack reg = wvmValueOf value

/-- The initial registers: slots above the old top of the stack hold no values. -/
def WVMInitial (vm : WVMState) (regs : Nat → Option MALValue) : Prop :=
  ∀ reg value, regs reg = some value →
    reg < vm.stackSize.toNat ∧ vm.stack reg = wvmValueOf value

/-- A run is about to execute the word at a place, and its registers hold the given values. -/
structure WVMReaches (proto : WVMPrototype) (place : Nat) (run : WVMRun) (now : Nat → Option MALValue) :
    Prop where
  going : run.result = none
  pc : run.pc.toNat = place
  holds : WVMHolds proto run.vm.stack now

/-- Running a prototype computes what the instructions denote: before each instruction all
registers hold the values of its operands, and a return leaves the value of its operand. -/
structure Computes (insts : List MALInst) (proto : WVMPrototype) (vm : WVMState)
    (regs : Nat → Option MALValue) : Prop where
  registers : ∀ place now, malRegsBefore insts regs place = some now →
    WVMReaches proto (wvmOffset insts place) (wvmExecute vm proto (wvmOffset insts place)) now
  returned : ∀ (place : Nat) now inst value, malRegsBefore insts regs place = some now →
    insts[place]? = some inst → inst.opcode = .ret → malInputs now inst = some [value] →
      (wvmExecute vm proto (wvmOffset insts place + wvmWords inst)).result = some true ∧
        (wvmExecute vm proto (wvmOffset insts place + wvmWords inst)).vm.stack 0 =
          wvmValueOf value

section Fits

/-- What the encoder needs of an instruction: registers below the scratch register, and immediates
that can be loaded at once. -/
structure MALInst.Fits (regCount : Nat) (inst : MALInst) : Prop where
  regs : ∀ reg, .reg reg ∈ inst.operands.map (·.payload) → reg.toNat + 1 < regCount
  dst : inst.opcode ≠ .ret → inst.dst + 1 < regCount
  imms : ∀ payload ∈ inst.operands.map (·.payload), (∃ reg, payload = .reg reg) ∨
    ∃ value, payload = .immInt value ∧ -2 ^ 31 ≤ value.toInt ∧ value.toInt ≤ 2 ^ 31 - 1

/-- The largest register that is found is at least each one. -/
theorem le_foldl_max {operands : List MALOperand} {start : Nat} :
    start ≤ operands.foldl (fun largest operand => max largest (operand.reg?.getD 0)) start ∧
      ∀ operand ∈ operands, operand.reg?.getD 0 ≤
        operands.foldl (fun largest operand => max largest (operand.reg?.getD 0)) start := by
  induction operands generalizing start with
  | nil => exact ⟨Nat.le_refl _, nofun⟩
  | cons first rest ih =>
    -- The largest of the rest is found from the larger of the start and the first register.
    obtain ⟨base, members⟩ := @ih (max start (first.reg?.getD 0))
    rw [List.foldl_cons, List.forall_mem_cons]
    exact ⟨by omega, by omega, members⟩

/-- The largest register that is found is below a bound of all of them. -/
theorem foldl_max_lt {operands : List MALOperand} {start bound : Nat} (begins : start < bound)
    (below : ∀ operand ∈ operands, operand.reg?.getD 0 < bound) :
    operands.foldl (fun largest operand => max largest (operand.reg?.getD 0)) start < bound := by
  induction operands generalizing start with
  | nil => exact begins
  | cons first rest ih =>
    rw [List.forall_mem_cons] at below
    exact ih (max_lt begins below.1) below.2

/-- The operands of a stream: those of the source instructions, and their destinations. -/
theorem tosStreams_operands {kind : MDSTargetKind} {insts : List MALInst} {lines : List TOSInst}
    (stream : TOSStreams kind insts lines) :
    (∀ operand ∈ lines.flatMap (·.operands), ∃ inst ∈ insts, operand ∈ inst.operands ∨
      inst.dst ≠ malInvalidReg ∧ operand = malOperandReg inst.dst inst.type) ∧
    ∀ inst ∈ insts, (∀ operand ∈ inst.operands, operand ∈ lines.flatMap (·.operands)) ∧
      (inst.opcode ≠ .ret → inst.dst ≠ malInvalidReg →
        malOperandReg inst.dst inst.type ∈ lines.flatMap (·.operands)) := by
  -- Every line carries its destination, if it has one, in front of the operands of its source.
  induction stream with
  | nil => exact ⟨nofun, nofun⟩
  | @cons inst line insts lines built rest ih =>
    obtain ⟨desc, -, operands, output, -⟩ := mdsBuildSelectedInst_selected built
    have here : line.operands = mdsDestination desc inst ++ inst.operands := operands
    rw [mdsDestination_eq output] at here
    rw [List.flatMap_cons, here]
    -- An operand of the stream is one of the source instruction or its destination.
    constructor
    · intro operand member
      rcases List.mem_append.mp member with first | later
      · refine ⟨inst, List.mem_cons_self, ?_⟩
        rcases List.mem_append.mp first with destination | source
        · split at destination
          · cases destination
          · rename_i valid
            exact .inr ⟨fun invalid => valid (.inr invalid), List.mem_singleton.mp destination⟩
        · exact .inl source
      · obtain ⟨other, inside, found⟩ := ih.1 operand later
        exact ⟨other, List.mem_cons_of_mem _ inside, found⟩
    -- The other way round, both are found in the stream.
    · rw [List.forall_mem_cons]
      refine ⟨⟨fun operand member => ?_, fun other valid => ?_⟩, fun next inside => ?_⟩
      · exact List.mem_append_left _ (List.mem_append_right _ member)
      · rw [if_neg (by simp [other, valid])]
        exact List.mem_append_left _ (List.mem_append_left _ List.mem_cons_self)
      · exact ⟨fun operand member => List.mem_append_right _ ((ih.2 next inside).1 operand member),
          fun other valid => List.mem_append_right _ ((ih.2 next inside).2 other valid)⟩

/-- Small instructions fit the registers that the encoder counts, and the last one is the scratch
register. -/
theorem wvmComputeRegCount_fits {kind : MDSTargetKind} {insts : List MALInst}
    {program : TOSProgram} (stream : TOSStreams kind insts program.instructions)
    (small : ∀ inst ∈ insts, inst.Small)
    (written : ∀ inst ∈ insts, inst.opcode ≠ .ret → inst.dst ≠ malInvalidReg) :
    (∀ inst ∈ insts, inst.Fits (wvmComputeRegCount program).toNat) ∧
      (wvmComputeRegCount program - 1).toNat + 1 = (wvmComputeRegCount program).toNat := by
  -- The counter is one past the largest register, and there is room for one more.
  obtain ⟨known, contained⟩ := tosStreams_operands stream
  have bound : wvmMaxReg program < 65534 := by
    refine foldl_max_lt (by omega) fun operand member => ?_
    obtain ⟨inst, inside, source | ⟨valid, rfl⟩⟩ := known operand member
    · rcases (small inst inside).operands operand source with
        ⟨reg, payload, below⟩ | ⟨value, payload, -⟩
      · rw [MALOperand.reg?, payload]
        exact below
      · rw [MALOperand.reg?, payload]
        show 0 < 65534
        omega
    · have below := (small inst inside).dst.resolve_left valid
      show (BitVec.ofNat 32 inst.dst).toNat < 65534
      rw [BitVec.toNat_ofNat, Nat.mod_eq_of_lt (by omega)]
      exact below
  have count : (wvmComputeRegCount program).toNat = wvmMaxReg program + 2 := by
    rw [wvmComputeRegCount, if_neg (by omega), BitVec.toNat_ofNat, Nat.mod_eq_of_lt (by omega)]
  -- No register of the stream is larger than the largest one.
  have largest : ∀ operand ∈ program.instructions.flatMap (·.operands),
      operand.reg?.getD 0 ≤ wvmMaxReg program := le_foldl_max.2
  constructor
  · intro inst inside
    refine ⟨fun reg member => ?_, fun other => ?_, fun payload member => ?_⟩
    · obtain ⟨operand, source, payload⟩ := List.mem_map.mp member
      have below := largest operand ((contained inst inside).1 operand source)
      rw [MALOperand.reg?, payload] at below
      rw [count]
      exact Nat.add_lt_add_of_le_of_lt below (by omega)
    -- A destination is one of the operands that were counted.
    · have valid := written inst inside other
      have below := largest _ ((contained inst inside).2 other valid)
      have small := (small inst inside).dst.resolve_left valid
      have reg : (malOperandReg inst.dst inst.type).reg?.getD 0 = inst.dst := by
        show (BitVec.ofNat 32 inst.dst).toNat = inst.dst
        rw [BitVec.toNat_ofNat, Nat.mod_eq_of_lt (by omega)]
      rw [reg] at below
      omega
    · obtain ⟨operand, source, rfl⟩ := List.mem_map.mp member
      exact ((small inst inside).operands operand source).imp
        (fun ⟨reg, payload, _⟩ => ⟨reg, payload⟩) fun ⟨value, payload, fits⟩ =>
          ⟨value, payload, fits⟩
  · rw [BitVec.toNat_sub_of_le (by rw [BitVec.le_def, count]; simp), count]
    rfl

end Fits

section Verify

variable {regCount : BitVec 16} {constCount : BitVec 32}

/-- An instruction whose operands are inside passes the verifier. -/
theorem instrValid_of_operands {word : BitVec 64} {op : WVMOpcode}
    (decoded : wvmDecodeOp word = op.ctorIdx)
    (inside : OperandsInside regCount constCount word (wvmOpcodeEncodings op)) :
    WVMInstrValid regCount constCount word := by
  -- The opcode is one of the table, with its encoding.
  have encoding : wvmGetEncoding (wvmDecodeOp word) = wvmOpcodeEncodings op := by
    rw [wvmGetEncoding, decoded, wvmOpcodes_ctorIdx]
    rfl
  have known : ¬ wvmDecodeOp word ≥ wvmOpCount := by
    rw [decoded]
    cases op <;> decide
  rw [WVMInstrValid, wvmVerifyInstr, if_neg known, encoding]
  cases kind : wvmOpcodeEncodings op <;> simp_all [OperandsInside]

/-- The last instruction of a line is valid if its registers are. -/
theorem wvmMain_valid {opcode : MALOpcode} {dst : BitVec 16} {sources : List (BitVec 16)}
    {main : BitVec 64} (emitted : wvmMain opcode dst sources = some main)
    (target : opcode ≠ .ret → dst < regCount) (known : ∀ source ∈ sources, source < regCount) :
    WVMInstrValid regCount constCount main := by
  -- The cases are those of the encoder, by the number of sources.
  rcases wvmMain_cases emitted with ⟨source, -, rfl, rfl⟩ | ⟨source, op, rfl, rfl, kind⟩ |
    ⟨lhs, rhs, op, rfl, meant, rfl⟩
  · refine instrValid_of_operands (wvmDecodeOp_opR .return source) ?_
    rw [show wvmOpcodeEncodings .return = .opR from rfl, OperandsInside, wvmDecodeRA_opR]
    exact known source List.mem_cons_self
  -- A unary word names two registers.
  · have unary : wvmOpcodeEncodings op = .opRr ∧ opcode ≠ .ret := by
      rcases kind with ⟨rfl, rfl⟩ | ⟨rfl, rfl⟩ | ⟨rfl, rfl⟩
      · exact ⟨rfl, by decide⟩
      · exact ⟨rfl, by decide⟩
      · exact ⟨rfl, by decide⟩
    refine instrValid_of_operands (wvmDecodeOp_opRr op dst source) ?_
    rw [unary.1, OperandsInside, wvmDecodeRA_opRr, wvmDecodeRB_opRr]
    exact ⟨target unary.2, known source List.mem_cons_self⟩
  -- A binary word names three.
  · have other : opcode ≠ .ret := by
      rintro rfl
      cases meant
    refine instrValid_of_operands (wvmDecodeOp_opRrr op dst lhs rhs) ?_
    rw [encoding_of_binary (wvmBinaryOpcode_mem meant), OperandsInside, wvmDecodeRA_opRrr,
      wvmDecodeRB_opRrr, wvmDecodeRC_opRrr]
    exact ⟨target other, known lhs List.mem_cons_self,
      known rhs (List.mem_cons_of_mem _ List.mem_cons_self)⟩

/-- A register that fits is below the count. -/
theorem setWidth_lt {reg : BitVec 32} (fits : reg.toNat + 1 < regCount.toNat) :
    reg.setWidth 16 < regCount ∧ (reg.setWidth 16).toNat = reg.toNat := by
  have limit := regCount.isLt
  -- Below the count nothing is cut from the number.
  have same : (reg.setWidth 16).toNat = reg.toNat := by
    rw [BitVec.toNat_setWidth, Nat.mod_eq_of_lt (by omega)]
  refine ⟨?_, same⟩
  rw [BitVec.lt_def, same]
  omega

/-- The destination of an instruction that fits. -/
theorem ofNat_lt {dst : Nat} (fits : dst + 1 < regCount.toNat) :
    BitVec.ofNat 16 dst < regCount ∧ (BitVec.ofNat 16 dst).toNat = dst := by
  have limit := regCount.isLt
  have same : (BitVec.ofNat 16 dst).toNat = dst := by
    rw [BitVec.toNat_ofNat, Nat.mod_eq_of_lt (by omega)]
  refine ⟨?_, same⟩
  rw [BitVec.lt_def, same]
  omega

/-- A load of an immediate that fits loads a small one. -/
theorem LoadsImm.small_of_fits {scratch : BitVec 16} {payload : MALOperandPayload}
    {load : BitVec 64} (loads : LoadsImm scratch payload load)
    (fits : (∃ reg, payload = .reg reg) ∨ ∃ value, payload = .immInt value ∧
      -2 ^ 31 ≤ value.toInt ∧ value.toInt ≤ 2 ^ 31 - 1) :
    ∃ value, payload = .immInt value ∧
      load = wvmEncodeOpRImm32 .loadImm scratch (value.setWidth 32) := by
  -- A load that is not small is of an immediate that does not fit.
  cases loads with
  | small value inside => exact ⟨value, rfl, rfl⟩
  | wide value large index =>
    obtain ⟨reg, other⟩ | ⟨same, payload, inside⟩ := fits
    · cases other
    · cases payload
      exact absurd inside large
  | float value index =>
    obtain ⟨reg, other⟩ | ⟨same, payload, -⟩ := fits
    · cases other
    · cases payload

/-- Every word of an instruction that fits passes the verifier. -/
theorem WVMEmits.valid {scratch : BitVec 16} {inst : MALInst} {words : List (BitVec 64)}
    (emits : WVMEmits scratch inst words) (fits : inst.Fits regCount.toNat)
    (last : scratch.toNat + 1 = regCount.toNat) :
    ∀ word ∈ words, WVMInstrValid regCount constCount word := by
  have inside : scratch < regCount := by
    rw [BitVec.lt_def]
    omega
  have load : ∀ {payload : MALOperandPayload} {load : BitVec 64}, LoadsImm scratch payload load →
      payload ∈ inst.operands.map (·.payload) → WVMInstrValid regCount constCount load := by
    intro payload load loads member
    obtain ⟨value, -, rfl⟩ := loads.small_of_fits (fits.imms payload member)
    refine instrValid_of_operands (wvmDecodeOp_opRImm32 .loadImm scratch _) ?_
    rw [show wvmOpcodeEncodings .loadImm = .opRImm32 from rfl, OperandsInside,
      wvmDecodeRA_opRImm32]
    exact inside
  cases emits with
  | @line loads sources main loaded emitted =>
    -- Sources are registers of the instruction, or the scratch register.
    have known : (∀ word ∈ loads, WVMInstrValid regCount constCount word) ∧
        ∀ source ∈ sources, source < regCount := by
      have regs := fits.regs
      generalize payloads : inst.operands.map (·.payload) = list at loaded load regs
      cases loaded with
      | reg source =>
        refine ⟨List.forall_mem_nil _, ?_⟩
        rw [List.forall_mem_singleton]
        exact (setWidth_lt (regs _ List.mem_cons_self)).1
      | imm loads =>
        rw [List.forall_mem_singleton, List.forall_mem_singleton]
        exact ⟨load loads List.mem_cons_self, inside⟩
      | regs lhs rhs =>
        refine ⟨List.forall_mem_nil _, ?_⟩
        rw [List.forall_mem_cons, List.forall_mem_singleton]
        exact ⟨(setWidth_lt (regs _ List.mem_cons_self)).1,
          (setWidth_lt (regs _ (List.mem_cons_of_mem _ List.mem_cons_self))).1⟩
      | regImm lhs loads =>
        rw [List.forall_mem_singleton, List.forall_mem_cons, List.forall_mem_singleton]
        exact ⟨load loads (List.mem_cons_of_mem _ List.mem_cons_self),
          (setWidth_lt (regs _ List.mem_cons_self)).1, inside⟩
    -- The last word names the destination and these sources.
    have main : WVMInstrValid regCount constCount main :=
      wvmMain_valid emitted (fun other => (ofNat_lt (fits.dst other)).1) known.2
    rw [List.forall_mem_append, List.forall_mem_singleton]
    exact ⟨known.1, main⟩
  | here copies operand loads same =>
    rw [List.forall_mem_singleton]
    exact load loads (operand ▸ List.mem_cons_self)

/-- Compiled code of instructions that fit passes the verifier. -/
theorem WVMCompiled.verified {insts : List MALInst} {scratch : BitVec 16}
    {code : List (List (BitVec 64))} {proto : WVMPrototype}
    (compiled : WVMCompiled insts scratch code proto)
    (fits : ∀ inst ∈ insts, inst.Fits proto.regCount.toNat)
    (last : scratch.toNat + 1 = proto.regCount.toNat) : wvmVerifyPrototype proto = .ok () := by
  refine wvmVerifyPrototype_ok_iff.mpr ⟨compiled.present, fun word member => ?_⟩
  rw [wvmArray_eq compiled.count.symm] at member
  -- Without instructions the code is the one halt that the encoder adds.
  by_cases full : insts = []
  · rw [compiled.empty full, List.mem_singleton] at member
    rw [member]
    have decoded : wvmDecodeOp WVMOpcode.halt.code = WVMOpcode.halt.ctorIdx := by decide
    exact instrValid_of_operands decoded trivial
  rw [compiled.instrs full] at member
  obtain ⟨words, place, inside⟩ := List.mem_flatten.mp member
  obtain ⟨index, bound, rfl⟩ := List.getElem_of_mem place
  -- Every other word belongs to the words of one instruction, which fits.
  have before : index < insts.length := compiled.emits.length_eq ▸ bound
  exact (compiled.emits.get before bound).valid (fits _ (List.get_mem _ _)) last word inside

end Verify

section Execute

variable {proto : WVMPrototype} {scratch : BitVec 16} {front back : List (BitVec 64)}
  {now : Nat → Option MALValue}

/-- The value of a register or of an integer immediate. -/
def PayloadHolds (now : Nat → Option MALValue) : MALOperandPayload → MALValue → Prop
  | .reg reg, value => now reg.toNat = some value
  | .immInt word, value => .int (word.setWidth 32) = value
  | _, _ => False

/-- The values of the operands of an instruction, payload by payload. -/
theorem malInputs_payloads {inst : MALInst} {inputs : List MALValue}
    (read : malInputs now inst = some inputs) :
    List.Forall₂ (PayloadHolds now) (inst.operands.map (·.payload)) inputs := by
  rw [malInputs, Dag.mapM_eq_some_iff] at read
  rw [List.forall₂_map_left_iff]
  -- A register operand holds its value, and an immediate is its value.
  refine read.imp fun operand value found => ?_
  rw [malOperandValue.eq_def] at found
  split at found
  · rename_i payload
    rw [payload]
    exact found
  · rename_i payload
    rw [payload]
    exact Option.some.inj found
  · cases found

/-- A list related to one operand has one value. -/
theorem forall₂_left_single {payload : MALOperandPayload} {values : List MALValue}
    (related : List.Forall₂ (PayloadHolds now) [payload] values) :
    ∃ value, values = [value] ∧ PayloadHolds now payload value := by
  cases related with
  | cons head tail =>
    cases tail
    exact ⟨_, rfl, head⟩

/-- A list related to two operands has two values. -/
theorem forall₂_left_pair {payload payload' : MALOperandPayload} {values : List MALValue}
    (related : List.Forall₂ (PayloadHolds now) [payload, payload'] values) :
    ∃ value value', values = [value, value'] ∧ PayloadHolds now payload value ∧
      PayloadHolds now payload' value' := by
  cases related with
  | cons head tail =>
    obtain ⟨value', rfl, last⟩ := forall₂_left_single tail
    exact ⟨_, value', rfl, head, last⟩

/-- After its loads, the sources of an instruction hold the values of its operands. -/
theorem WVMReaches.loaded {vm : WVMState} {rounds : Nat}
    (reaches : WVMReaches proto front.length (wvmExecute vm proto rounds) now)
    (count : proto.instrCount.toNat = (proto.instrs.getD []).length)
    (last : scratch.toNat + 1 = proto.regCount.toNat) {inst : MALInst}
    (fits : inst.Fits proto.regCount.toNat) {loads : List (BitVec 64)}
    {sources : List (BitVec 16)}
    (loaded : Loaded scratch (inst.operands.map (·.payload)) loads sources)
    (split : proto.instrs.getD [] = front ++ (loads ++ back)) {inputs : List MALValue}
    (read : malInputs now inst = some inputs) :
    WVMReaches proto (front ++ loads).length (wvmExecute vm proto (rounds + loads.length)) now ∧
      sources.map (wvmExecute vm proto (rounds + loads.length)).slot = inputs.map wvmValueOf := by
  have values := malInputs_payloads read
  have regs := fits.regs
  have imms := fits.imms
  -- A register that fits holds its value, also after the scratch register has been written.
  have held : ∀ {run : WVMRun} {reg : BitVec 32} {value : MALValue},
      WVMHolds proto run.vm.stack now → reg.toNat + 1 < proto.regCount.toNat →
        PayloadHolds now (.reg reg) value → run.slot (reg.setWidth 16) = wvmValueOf value := by
    intro run reg value holds inside meaning
    rw [WVMRun.slot, (setWidth_lt inside).2]
    exact holds reg.toNat value inside meaning
  have load : ∀ {word : BitVec 64} {payload : MALOperandPayload} {value : MALValue},
      LoadsImm scratch payload word → loads = [word] →
      payload ∈ inst.operands.map (·.payload) → PayloadHolds now payload value →
      WVMReaches proto (front ++ [word]).length (wvmExecute vm proto (rounds + 1)) now ∧
        (wvmExecute vm proto (rounds + 1)).slot scratch = wvmValueOf value := by
    intro word payload value loading only member meaning
    -- The immediate is a small one, so the load writes it without the pool.
    obtain ⟨immediate, rfl, rfl⟩ := loading.small_of_fits (imms payload member)
    rw [only, List.singleton_append] at split
    obtain ⟨inside, here⟩ := instrAt_of_split count split reaches.pc
    have wrote := wvmStep_load loading reaches.going inside here
    rw [wvmLoadedValue_small] at wrote
    refine ⟨⟨wrote.result, ?_, fun reg value below known => ?_⟩, ?_⟩
    · rw [wvmExecute, wrote.pc, reaches.pc, List.length_append, List.length_singleton]
    · rw [wvmExecute, wrote.stack, Function.update_of_ne]
      · exact reaches.holds reg value below known
      · have bound : reg + 1 < proto.regCount.toNat := below
        omega
    · rw [WVMRun.slot, wvmExecute, wrote.stack, Function.update_self, ← meaning]
      rfl
  generalize payloads : inst.operands.map (·.payload) = list at loaded values regs load
  cases loaded with
  -- Without a load the state is as before, and with one it is one word further on.
  | reg source =>
    obtain ⟨value, rfl, meaning⟩ := forall₂_left_single values
    rw [List.append_nil]
    refine ⟨reaches, ?_⟩
    simp only [List.map_cons, List.map_nil, List.length_nil, Nat.add_zero]
    rw [held reaches.holds (regs _ List.mem_cons_self) meaning]
  | imm loading =>
    obtain ⟨value, rfl, meaning⟩ := forall₂_left_single values
    obtain ⟨later, slot⟩ := load loading rfl List.mem_cons_self meaning
    refine ⟨later, ?_⟩
    simp only [List.map_cons, List.map_nil, List.length_singleton]
    rw [slot]
  | regs lhs rhs =>
    obtain ⟨value, value', rfl, meaning, meaning'⟩ := forall₂_left_pair values
    rw [List.append_nil]
    refine ⟨reaches, ?_⟩
    simp only [List.map_cons, List.map_nil, List.length_nil, Nat.add_zero]
    rw [held reaches.holds (regs _ List.mem_cons_self) meaning,
      held reaches.holds (regs _ (List.mem_cons_of_mem _ List.mem_cons_self)) meaning']
  | regImm lhs loading =>
    obtain ⟨value, value', rfl, meaning, meaning'⟩ := forall₂_left_pair values
    obtain ⟨later, slot⟩ := load loading rfl (List.mem_cons_of_mem _ List.mem_cons_self) meaning'
    refine ⟨later, ?_⟩
    simp only [List.map_cons, List.map_nil, List.length_singleton]
    rw [held later.holds (regs _ List.mem_cons_self) meaning, slot]

/-- The last register is no destination of an instruction that fits. -/
theorem MALInst.Fits.dst_ne {inst : MALInst} (fits : inst.Fits proto.regCount.toNat)
    (last : scratch.toNat + 1 = proto.regCount.toNat) (other : inst.opcode ≠ .ret) :
    scratch ≠ BitVec.ofNat 16 inst.dst := by
  intro same
  -- The destination is below the count and its last register.
  have inside := fits.dst other
  have value := (ofNat_lt inside).2
  rw [← same] at value
  omega

/-- Every immediate is loaded by one word, and one more word ends the instruction. -/
theorem WVMEmits.length {inst : MALInst} {words : List (BitVec 64)}
    (emits : WVMEmits scratch inst words) (fits : inst.Fits proto.regCount.toNat)
    (last : scratch.toNat + 1 = proto.regCount.toNat) : words.length = wvmWords inst := by
  -- Only immediates are loaded, and only the line in front of a copy has no end.
  have counted : inst.operands.countP mdsIsImmediate =
      (inst.operands.map (·.payload)).countP fun payload => mdsIsImmediate ⟨.void, payload⟩ := by
    rw [List.countP_map]
    rfl
  -- What is loaded is an immediate.
  have immediate : ∀ {payload : MALOperandPayload} {load : BitVec 64},
      LoadsImm scratch payload load → mdsIsImmediate ⟨.void, payload⟩ = true := by
    intro payload load loads
    cases loads <;> rfl
  cases emits with
  | @line loads sources main loaded emitted =>
    rw [wvmWords, counted, List.length_append, List.length_singleton]
    generalize inst.operands.map (·.payload) = payloads at loaded
    congr 1
    cases loaded with
    | reg source => rfl
    | imm loading => simp [immediate loading]
    | regs lhs rhs => rfl
    | regImm lhs loading =>
      have first : mdsIsImmediate ⟨.void, .reg lhs⟩ = false := rfl
      simp [first, immediate loading]
  -- A register that fits is not the scratch register.
  | here copies operand loads same =>
    exact absurd same (fits.dst_ne last (by rw [copies]; decide))

/-- When the operands are loaded, the last word of the instruction comes next. -/
theorem WVMReaches.at_main {vm : WVMState} {rounds : Nat}
    (reaches : WVMReaches proto front.length (wvmExecute vm proto rounds) now)
    (count : proto.instrCount.toNat = (proto.instrs.getD []).length)
    (last : scratch.toNat + 1 = proto.regCount.toNat) {inst : MALInst}
    (fits : inst.Fits proto.regCount.toNat) {loads : List (BitVec 64)}
    {sources : List (BitVec 16)} {main : BitVec 64}
    (loaded : Loaded scratch (inst.operands.map (·.payload)) loads sources)
    (split : proto.instrs.getD [] = front ++ ((loads ++ [main]) ++ back)) {inputs : List MALValue}
    (read : malInputs now inst = some inputs) :
    WVMReaches proto (front ++ loads).length (wvmExecute vm proto (rounds + loads.length)) now ∧
      sources.map (wvmExecute vm proto (rounds + loads.length)).slot = inputs.map wvmValueOf ∧
        (wvmExecute vm proto (rounds + loads.length)).pc < proto.instrCount ∧
          proto.instrAt (wvmExecute vm proto (rounds + loads.length)).pc = main := by
  rw [List.append_assoc] at split
  -- The loads have gone through, so the next word is the main one.
  obtain ⟨before, sourced⟩ := reaches.loaded count last fits loaded split read
  rw [← List.append_assoc, List.singleton_append] at split
  obtain ⟨inside, here⟩ := instrAt_of_split count split before.pc
  exact ⟨before, sourced, inside, here⟩

/-- The rounds of a line load its operands and then execute its instruction. -/
theorem wvmExecute_line (vm : WVMState) (rounds : Nat) (loads : List (BitVec 64))
    (main : BitVec 64) : wvmExecute vm proto (rounds + (loads ++ [main]).length) =
      wvmStep proto (wvmExecute vm proto (rounds + loads.length)) := by
  rw [List.length_append, List.length_singleton, ← Nat.add_assoc, wvmExecute]

/-- Executing an instruction that does not return. -/
theorem WVMReaches.line {vm : WVMState} {rounds : Nat}
    (reaches : WVMReaches proto front.length (wvmExecute vm proto rounds) now)
    (count : proto.instrCount.toNat = (proto.instrs.getD []).length)
    (last : scratch.toNat + 1 = proto.regCount.toNat) {inst : MALInst}
    (fits : inst.Fits proto.regCount.toNat) {words : List (BitVec 64)}
    (emits : WVMEmits scratch inst words) (other : inst.opcode ≠ .ret)
    (split : proto.instrs.getD [] = front ++ (words ++ back)) {inputs : List MALValue}
    (read : malInputs now inst = some inputs) :
    match wvmOutput inst.opcode (inputs.map wvmValueOf) with
    | some value => (wvmExecute vm proto (rounds + words.length)).result = none ∧
      (wvmExecute vm proto (rounds + words.length)).pc.toNat = (front ++ words).length ∧
        (wvmExecute vm proto (rounds + words.length)).vm.stack inst.dst = value ∧
          ∀ reg known, reg ≠ inst.dst → TOSRegister proto reg → now reg = some known →
            (wvmExecute vm proto (rounds + words.length)).vm.stack reg = wvmValueOf known
    | none => (wvmExecute vm proto (rounds + words.length)).result = some false := by
  -- The operands are loaded first, and the last word writes the destination.
  cases emits with
  | @line loads sources main loaded emitted =>
    obtain ⟨before, sourced, inside, here⟩ :=
      reaches.at_main count last fits loaded split read
    -- The machine computes what the opcode's output is, or fails.
    have step := wvmStep_main other emitted before.going inside here
    rw [sourced] at step
    rw [wvmExecute_line]
    cases output : wvmOutput inst.opcode (inputs.map wvmValueOf) with
    | none =>
      rw [output] at step
      exact step
    | some value =>
      rw [output] at step
      -- The destination holds the value, and every other register is as before.
      refine ⟨step.result, ?_, ?_, fun reg known different below holds => ?_⟩
      · rw [step.pc, before.pc]
        simp only [List.length_append, List.length_singleton]
        omega
      · rw [step.stack, (ofNat_lt (fits.dst other)).2, Function.update_self]
      · rw [step.stack, (ofNat_lt (fits.dst other)).2, Function.update_of_ne different]
        exact before.holds reg known below holds
  | here copies operand loads same => exact absurd same (fits.dst_ne last other)

/-- Executing a return. -/
theorem WVMReaches.returns {vm : WVMState} {rounds : Nat}
    (reaches : WVMReaches proto front.length (wvmExecute vm proto rounds) now)
    (count : proto.instrCount.toNat = (proto.instrs.getD []).length)
    (last : scratch.toNat + 1 = proto.regCount.toNat) {inst : MALInst}
    (fits : inst.Fits proto.regCount.toNat) {words : List (BitVec 64)}
    (emits : WVMEmits scratch inst words) (returns : inst.opcode = .ret)
    (split : proto.instrs.getD [] = front ++ (words ++ back)) {value : MALValue}
    (read : malInputs now inst = some [value]) :
    (wvmExecute vm proto (rounds + words.length)).result = some true ∧
      (wvmExecute vm proto (rounds + words.length)).vm.stack 0 = wvmValueOf value := by
  -- The operand is loaded first, and the last word returns it.
  cases emits with
  | @line loads sources main loaded emitted =>
    obtain ⟨before, sourced, inside, here⟩ :=
      reaches.at_main count last fits loaded split read
    -- Only a return word is emitted for a return.
    rw [returns] at emitted
    obtain ⟨source, rfl⟩ := wvmMain_ret emitted
    obtain ⟨result, stack⟩ := wvmStep_return emitted before.going inside here
    rw [wvmExecute_line]
    refine ⟨result, ?_⟩
    rw [stack, Function.update_self]
    exact (List.cons.inj sourced).1
  | here copies operand loads same =>
    rw [returns] at copies
    cases copies

end Execute

section Runs

variable {proto : WVMPrototype} {scratch : BitVec 16} {insts : List MALInst}
  {code : List (List (BitVec 64))}

/-- The words before an instruction are counted by its offset. -/
theorem WVMCompiled.offset (compiled : WVMCompiled insts scratch code proto)
    (fits : ∀ inst ∈ insts, inst.Fits proto.regCount.toNat)
    (last : scratch.toNat + 1 = proto.regCount.toNat) (place : Nat) :
    (code.take place).flatten.length = wvmOffset insts place := by
  -- An instruction has as many words as its size says.
  have lengths : code.map List.length = insts.map wvmWords := by
    refine List.ext_getElem ?_ fun index inside there => ?_
    · rw [List.length_map, List.length_map, compiled.emits.length_eq]
    · rw [List.length_map] at inside there
      rw [List.getElem_map, List.getElem_map]
      exact (compiled.emits.get there inside).length (fits _ (List.getElem_mem there)) last
  rw [List.length_flatten, List.map_take, lengths, wvmOffset, List.map_take]

/-- The words of the instruction at a place stand in the code at its offset. -/
theorem WVMCompiled.at (compiled : WVMCompiled insts scratch code proto) {place : Nat}
    {inst : MALInst} (found : insts[place]? = some inst) :
    ∃ words back, WVMEmits scratch inst words ∧
      proto.instrs.getD [] = (code.take place).flatten ++ (words ++ back) ∧
        (code.take (place + 1)).flatten = (code.take place).flatten ++ words := by
  obtain ⟨inside, rfl⟩ := List.getElem?_eq_some_iff.mp found
  have there : place < code.length := compiled.emits.length_eq ▸ inside
  have full : insts ≠ [] := List.ne_nil_of_length_pos (by omega)
  -- One more instruction appends its words.
  have next : (code.take (place + 1)).flatten = (code.take place).flatten ++ code[place] := by
    rw [← List.take_append_getElem there, List.flatten_concat]
  refine ⟨code[place], (code.drop (place + 1)).flatten, compiled.emits.get inside there, ?_, next⟩
  rw [compiled.instrs full, ← List.append_assoc, ← next, ← List.flatten_append,
    List.take_append_drop]

/-- One instruction later. -/
theorem wvmOffset_succ {place : Nat} {inst : MALInst} (found : insts[place]? = some inst) :
    wvmOffset insts (place + 1) = wvmOffset insts place + wvmWords inst := by
  rw [wvmOffset, wvmOffset, List.take_add_one, found]
  simp

/-- The registers before the next instruction. -/
theorem malRegsBefore_succ {regs next : Nat → Option MALValue} {place : Nat}
    (after : malRegsBefore insts regs (place + 1) = some next) :
    ∃ now inst inputs value, malRegsBefore insts regs place = some now ∧
      insts[place]? = some inst ∧ inst.opcode ≠ .ret ∧ malInputs now inst = some inputs ∧
        malDenote inst.opcode inputs = some value ∧
          next = Function.update now inst.dst (some value) := by
  rw [malRegsBefore] at after
  simp only [Option.bind_eq_bind, Option.bind_eq_some_iff] at after
  -- The registers before an instruction exist when all the earlier ones were evaluated.
  obtain ⟨now, before, inst, found, step⟩ := after
  split at step
  · cases step
  · rename_i other
    simp only [Option.bind_eq_some_iff, Option.pure_def, Option.some.injEq] at step
    obtain ⟨inputs, read, value, denoted, rfl⟩ := step
    exact ⟨now, inst, inputs, value, before, found, other, read, denoted, rfl⟩

/-- Every executed instruction other than a return that denotes a value has inputs that the
emitted bytecode supports. -/
def SupportsAll (insts : List MALInst) (regs : Nat → Option MALValue) : Prop :=
  ∀ (place : Nat) now inst inputs value, malRegsBefore insts regs place = some now →
    insts[place]? = some inst → inst.opcode ≠ .ret → malInputs now inst = some inputs →
      malDenote inst.opcode inputs = some value → WVMSupports inst.opcode inputs

section

variable (compiled : WVMCompiled insts scratch code proto)
  (fits : ∀ inst ∈ insts, inst.Fits proto.regCount.toNat)
  (last : scratch.toNat + 1 = proto.regCount.toNat) {vm : WVMState} {regs : Nat → Option MALValue}

include compiled fits last

/-- Where the next instruction starts, the registers hold what the instruction computes, if it
supports its inputs. -/
theorem WVMReaches.next {place : Nat} {now : Nat → Option MALValue} {inst : MALInst}
    {inputs : List MALValue} {value : MALValue}
    (reaches : WVMReaches proto (wvmOffset insts place)
      (wvmExecute vm proto (wvmOffset insts place)) now)
    (found : insts[place]? = some inst) (other : inst.opcode ≠ .ret)
    (read : malInputs now inst = some inputs)
    (denoted : malDenote inst.opcode inputs = some value) :
    WVMReaches proto (wvmOffset insts (place + 1))
        (wvmExecute vm proto (wvmOffset insts (place + 1)))
        (Function.update now inst.dst (some value)) ↔
      WVMSupports inst.opcode inputs := by
  obtain ⟨words, back, emits, split, -⟩ := compiled.at found
  have member := List.mem_of_getElem? found
  have count := emits.length (fits inst member) last
  rw [← compiled.offset fits last place] at reaches
  -- The line is executed from its offset up to the next one.
  have line := reaches.line compiled.count last (fits inst member) emits other split read
  rw [compiled.offset fits last, count, ← wvmOffset_succ found] at line
  rw [← wvmOutput_eq_iff denoted]
  have inside := (fits inst member).dst other
  -- The instruction supports its inputs just when it has an output.
  constructor
  · intro after
    cases output : wvmOutput inst.opcode (inputs.map wvmValueOf) with
    | none =>
      rw [output] at line
      have failed := after.going.symm.trans line
      cases failed
    | some word =>
      rw [output] at line
      -- The destination holds both the word that was written and the value that was denoted.
      have denotes := after.holds inst.dst value inside (Function.update_self ..)
      rw [← line.2.2.1, denotes]
  · intro output
    rw [output] at line
    obtain ⟨going, pc, target, others⟩ := line
    refine ⟨going, ?_, fun reg known below holds => ?_⟩
    · rw [pc, List.length_append, count, compiled.offset fits last, wvmOffset_succ found]
    · by_cases same : reg = inst.dst
      · rw [same, Function.update_self] at holds
        rw [same, target, Option.some.inj holds]
      · rw [Function.update_of_ne same] at holds
        exact others reg known same below holds

/-- If all executed instructions support their inputs, every place is reached with its values. -/
theorem WVMReaches.run (start : WVMReaches proto 0 (wvmExecute vm proto 0) regs)
    (supports : SupportsAll insts regs) (place : Nat) {now : Nat → Option MALValue}
    (before : malRegsBefore insts regs place = some now) :
    WVMReaches proto (wvmOffset insts place) (wvmExecute vm proto (wvmOffset insts place)) now := by
  -- Induction on the place, where each instruction supports its inputs.
  induction place generalizing now with
  | zero =>
    obtain rfl := Option.some.inj before
    exact start
  | succ place ih =>
    obtain ⟨earlier, inst, inputs, value, was, found, other, read, denoted, rfl⟩ :=
      malRegsBefore_succ before
    exact ((ih was).next compiled fits last found other read denoted).mpr
      (supports place earlier inst inputs value was found other read denoted)

/-- Where all instructions compute what they denote, all support their inputs. -/
theorem Computes.supports (computes : Computes insts proto vm regs) : SupportsAll insts regs := by
  intro place now inst inputs value before found other read denoted
  have reaches := computes.registers place now before
  -- The registers after the instruction are known, since it computes.
  have after : malRegsBefore insts regs (place + 1) =
      some (Function.update now inst.dst (some value)) := by
    rw [malRegsBefore]
    simp [before, found, other, read, denoted]
  exact (reaches.next compiled fits last found other read denoted).mp
    (computes.registers (place + 1) _ after)

/-- Where all executed instructions support their inputs, all compute what they denote. -/
theorem SupportsAll.computes (supports : SupportsAll insts regs)
    (start : WVMReaches proto 0 (wvmExecute vm proto 0) regs) : Computes insts proto vm regs where
  registers place now before := start.run compiled fits last supports place before
  returned place now inst value before found returns read := by
    -- The run reaches the return with the registers that the source has there.
    have reaches := start.run compiled fits last supports place before
    obtain ⟨words, back, emits, split, -⟩ := compiled.at found
    have member := fits inst (List.mem_of_getElem? found)
    rw [← compiled.offset fits last place] at reaches
    have ended := reaches.returns compiled.count last member emits returns split read
    rwa [compiled.offset fits last place, emits.length member last] at ended

end

end Runs

section Function

variable {fn : MALFunction} {triple : Option String} {kind : MDSTargetKind}
  {selector : Option MDSInstrSelector} {program : MDSProgram} {name source : Option CString}
  {proto : WVMPrototype} {vm : WVMState} {regs : Nat → Option MALValue}

/-- The prototype of a stream of small instructions starts with the initial registers. -/
theorem tosStreams_starts {insts : List MALInst} {stream : TOSProgram}
    (streams : TOSStreams kind insts stream.instructions) (small : ∀ inst ∈ insts, inst.Small)
    (encoded : wvmPrototypeFromTOS stream name source = some proto)
    (initial : WVMInitial vm regs) :
    ∃ scratch code, WVMCompiled insts scratch code proto ∧
      (∀ inst ∈ insts, inst.Fits proto.regCount.toNat) ∧
        scratch.toNat + 1 = proto.regCount.toNat ∧
          WVMReaches proto 0 (wvmExecute vm proto 0) regs := by
  obtain ⟨count, code, compiled⟩ := wvmPrototypeFromTOS_compiled streams encoded
  obtain ⟨fits, last⟩ := wvmComputeRegCount_fits streams small compiled.written
  rw [← count] at fits last compiled
  refine ⟨_, code, compiled, fits, last, ?_⟩
  have verified := compiled.verified fits last
  rw [wvmExecute, wvmStart, verified]
  refine ⟨rfl, rfl, fun reg value below known => ?_⟩
  -- A register that holds a value is below the old top of the stack.
  obtain ⟨inside, word⟩ := initial reg value known
  show (if _ then _ else _) = _
  rw [if_neg (by omega), word]

/-- The prototype of a small function starts with the initial registers. -/
theorem wvmPrototypeFromTOS_starts (stock : StockSelector (mdsLoadMachine kind) selector)
    (lowered : mdsLowerFromMAL ⟨[fn], triple⟩ selector (mdsLoadMachine kind) = some program)
    (small : ∀ inst ∈ fn.insts, inst.Small)
    (encoded : wvmPrototypeFromTOS (tosBuildFromMDS program) name source = some proto)
    (initial : WVMInitial vm regs) :
    ∃ scratch code, WVMCompiled fn.insts scratch code proto ∧
      (∀ inst ∈ fn.insts, inst.Fits proto.regCount.toNat) ∧
        scratch.toNat + 1 = proto.regCount.toNat ∧
          WVMReaches proto 0 (wvmExecute vm proto 0) regs := by
  rw [stock.lower] at lowered
  -- The instructions of the only block are the stream that is encoded.
  have stream := tosStreams_build lowered
  rw [List.flatMap_singleton] at stream
  exact tosStreams_starts stream small encoded initial

/-- Compiled code of an integer function computes what its opcodes denote for precisely the
initial registers with which every executed instruction supports its inputs: exclusive or only has
inputs that share no bit, and only copies and returns have inputs that are truth values. -/
theorem wvmExecute_computes_iff (stock : StockSelector (mdsLoadMachine kind) selector)
    (lowered : mdsLowerFromMAL ⟨[fn], triple⟩ selector (mdsLoadMachine kind) = some program)
    (small : ∀ inst ∈ fn.insts, inst.Small)
    (encoded : wvmPrototypeFromTOS (tosBuildFromMDS program) name source = some proto)
    (initial : WVMInitial vm regs) :
    Computes fn.insts proto vm regs ↔ SupportsAll fn.insts regs := by
  obtain ⟨scratch, code, compiled, fits, last, start⟩ :=
    wvmPrototypeFromTOS_starts stock lowered small encoded initial
  -- One direction reads the support off the results, the other computes them.
  exact ⟨fun computes => computes.supports compiled fits last,
    fun supports => supports.computes compiled fits last start⟩

end Function

/-- A function that returns what an opcode computes from its first two registers. -/
def malBinaryFunction (opcode : MALOpcode) : MALFunction :=
  ⟨"binary", .i32, [.i32, .i32], 2,
    [⟨0, [⟨0, opcode, .i32, 2, [malOperandReg 0 .i32, malOperandReg 1 .i32]⟩,
      ⟨1, .ret, .void, malInvalidReg, [malOperandReg 2 .i32]⟩], [], []⟩], 3⟩

/-- The registers and immediates of the function are small. -/
theorem malBinaryFunction_small (opcode : MALOpcode) :
    ∀ inst ∈ (malBinaryFunction opcode).insts, inst.Small := by
  -- The registers are zero, one and two.
  have reg : ∀ number < 3, ∃ reg, (malOperandReg number .i32).payload = .reg reg ∧
      reg.toNat < 65534 := by
    intro number inside
    refine ⟨BitVec.ofNat 32 number, rfl, ?_⟩
    rw [BitVec.toNat_ofNat]
    omega
  have insts : (malBinaryFunction opcode).insts =
      [⟨0, opcode, .i32, 2, [malOperandReg 0 .i32, malOperandReg 1 .i32]⟩,
        ⟨1, .ret, .void, malInvalidReg, [malOperandReg 2 .i32]⟩] := rfl
  -- One instruction computes, and the other returns.
  rw [insts, List.forall_mem_cons, List.forall_mem_singleton]
  refine ⟨⟨?_, .inr (show 2 < 65534 by omega)⟩, ⟨?_, .inl rfl⟩⟩
  · rw [List.forall_mem_cons, List.forall_mem_singleton]
    exact ⟨.inl (reg 0 (by omega)), .inl (reg 1 (by omega))⟩
  · rw [List.forall_mem_singleton]
    exact .inl (reg 2 (by omega))

/-- The registers zero and one hold the given integers. -/
def malPair (x y : BitVec 32) : Nat → Option MALValue
  | 0 => some (.int x)
  | 1 => some (.int y)
  | _ => none

/-- A machine whose registers zero and one hold the given integers. -/
def wvmPair (x y : BitVec 32) : WVMState :=
  { wvmCreate with
    stack := fun slot => if slot = 0 then wvmValueFromInt x else wvmValueFromInt y
    stackSize := 2 }

/-- The machine with two words in its parameter registers is in an initial state. -/
theorem wvmPair_initial (x y : BitVec 32) : WVMInitial (wvmPair x y) (malPair x y) := by
  intro reg value held
  have size : (wvmPair x y).stackSize.toNat = 2 := rfl
  rw [size]
  match reg, held with
  | 0, held => exact ⟨by omega, congrArg wvmValueOf (Option.some.inj held)⟩
  | 1, held => exact ⟨by omega, congrArg wvmValueOf (Option.some.inj held)⟩

/-- The operation of the function supports its inputs if it supports the two integers. -/
theorem malBinaryFunction_supports {opcode : MALOpcode} {x y : BitVec 32}
    (supported : WVMSupports opcode [.int x, .int y]) :
    SupportsAll (malBinaryFunction opcode).insts (malPair x y) := by
  intro place now inst inputs value before found other read denoted
  -- The operation comes first, and the return after it is not executed as an operation.
  match place, found with
  | 0, found =>
    obtain rfl := Option.some.inj found
    obtain rfl := Option.some.inj before
    obtain rfl : [.int x, .int y] = inputs := Option.some.inj read
    exact supported
  | 1, found =>
    obtain rfl := Option.some.inj found
    exact absurd rfl other

/-- The generic machine has a prototype for this function with any opcode of two operands. -/
theorem malBinaryFunction_encoded {opcode : MALOpcode}
    (encodes : ((mdsLowerFromMAL ⟨[malBinaryFunction opcode], none⟩ none
      (mdsLoadMachine .generic)).bind fun program =>
        wvmPrototypeFromTOS (tosBuildFromMDS program) none none).isSome = true) :
    ∃ program proto, mdsLowerFromMAL ⟨[malBinaryFunction opcode], none⟩ none
        (mdsLoadMachine .generic) = some program ∧
      wvmPrototypeFromTOS (tosBuildFromMDS program) none none = some proto := by
  -- Both stages of the pipeline succeeded.
  obtain ⟨proto, encoded⟩ := Option.isSome_iff_exists.mp encodes
  obtain ⟨program, lowered, made⟩ := Option.bind_eq_some_iff.mp encoded
  exact ⟨program, proto, lowered, made⟩

/-- The sum of one and two is computed. -/
theorem wvmExecute_computes_add :
    ∃ program proto, wvmPrototypeFromTOS (tosBuildFromMDS program) none none = some proto ∧
      Computes (malBinaryFunction .add).insts proto (wvmPair 1 2) (malPair 1 2) := by
  -- The pipeline is evaluated once, on the function itself.
  obtain ⟨program, proto, lowered, encoded⟩ := malBinaryFunction_encoded
    (show (Option.bind (mdsLowerFromMAL ⟨[malBinaryFunction .add], none⟩ none _) _).isSome = true
      by decide)
  have stock : StockSelector (mdsLoadMachine .generic) none := rfl
  refine ⟨program, proto, encoded, (wvmExecute_computes_iff stock lowered
    (malBinaryFunction_small .add) encoded (wvmPair_initial 1 2)).mpr ?_⟩
  exact malBinaryFunction_supports (by simp [WVMSupports, MALValue.isInt])

/-- Exclusive or of one and one is emitted as inclusive or. -/
theorem wvmExecute_not_computes :
    ¬ ∀ (fn : MALFunction) (triple : Option String) (kind : MDSTargetKind)
      (selector : Option MDSInstrSelector) (program : MDSProgram) (name source : Option CString)
      (proto : WVMPrototype) (vm : WVMState) (regs : Nat → Option MALValue),
      StockSelector (mdsLoadMachine kind) selector →
      mdsLowerFromMAL ⟨[fn], triple⟩ selector (mdsLoadMachine kind) = some program →
      (∀ inst ∈ fn.insts, inst.Small) →
      wvmPrototypeFromTOS (tosBuildFromMDS program) name source = some proto →
      WVMInitial vm regs → Computes fn.insts proto vm regs := by
  -- The machine has no exclusive or, and one and one differ under the two.
  intro claimed
  obtain ⟨program, proto, lowered, encoded⟩ := malBinaryFunction_encoded
    (show (Option.bind (mdsLowerFromMAL ⟨[malBinaryFunction .xor], none⟩ none _) _).isSome = true
      by decide)
  have stock : StockSelector (mdsLoadMachine .generic) none := rfl
  have computes := claimed (malBinaryFunction .xor) none .generic none program none none proto
    (wvmPair 1 1) (malPair 1 1) stock lowered (malBinaryFunction_small .xor) encoded
    (wvmPair_initial 1 1)
  obtain ⟨scratch, code, compiled, fits, last, -⟩ := wvmPrototypeFromTOS_starts stock lowered
    (malBinaryFunction_small .xor) encoded (wvmPair_initial 1 1)
  -- The instruction would have to support its inputs, which share a bit.
  have supported : WVMSupports .xor [.int 1, .int 1] := computes.supports compiled fits last 0 _ _
    [.int 1, .int 1] (.int 0) rfl rfl (by decide) rfl rfl
  have apart : 1#32 &&& 1#32 = 0#32 := supported
  revert apart
  decide

end Wirble
