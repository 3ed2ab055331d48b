import Wirble.Wvm.Registers

/-! What the last bytecode of an instruction reads for the operands of the instruction. -/

namespace Wirble

/-! Operands and the values that stand for them. -/

def wvmNanboxQnan : BitVec 64 := 0x7FFC000000000000#64

/-- Doubles are the words outside the space of the tags. -/
def wvmIsFloat (value : BitVec 64) : Bool := value &&& wvmNanboxQnan != wvmNanboxQnan

/-- The value is that of the operand, where registers have the given contents. -/
def OperandReads (stack : Nat → BitVec 64) (operand : MALOperand) (value : BitVec 64) : Prop :=
  match operand.payload with
  | .reg reg => value = stack reg.toNat
  | .immInt word => ∃ int : BitVec 32, value = wvmValueFromInt int ∧ int.signExtend 64 = word
  | .immFloat bits => value = bits ∧ wvmIsFloat value = true
  | _ => False

/-- The operands of an instruction that it reads: all but the destination, which a return lacks. -/
def TOSInst.sources (inst : TOSInst) : List MALOperand :=
  match inst.desc with
  | none => []
  | some desc => if wvmNamed desc.mnemonic "ret" then inst.operands else inst.operands.tail

/-- The registers that a bytecode reads, by its encoding. -/
def wvmSourceRegs (word : BitVec 64) : List (BitVec 16) :=
  match wvmGetEncoding (wvmDecodeOp word) with
  | .opR => [wvmDecodeRA word]
  | .opRr => [wvmDecodeRB word]
  | .opRrr => [wvmDecodeRB word, wvmDecodeRC word]
  | _ => []

/-- The code and the constants of a prototype go on from those of a builder. -/
structure WVMCarries (builder : WVMEncodeBuilder) (proto : WVMPrototype) : Prop where
  instrs : builder.instrs <+: proto.instrs.getD []
  consts : builder.consts <+: proto.consts.getD []
  count : proto.instrCount.toNat = (proto.instrs.getD []).length

/-- Whenever the bytecodes that are emitted for an instruction run, the last of them reads the
values of the instruction's operands, or there is nothing to run. -/
def OperandsFaithful (before after : WVMEncodeBuilder) (inst : TOSInst) : Prop :=
  after.instrs.length = before.instrs.length ∨
    ∀ proto, WVMCarries after proto → ∀ run : WVMRun,
      run.result = none → run.pc.toNat = before.instrs.length →
      let now := (wvmStep proto)^[after.instrs.length - 1 - before.instrs.length] run
      now.result = none ∧ now.pc.toNat = after.instrs.length - 1 ∧
        List.Forall₂ (OperandReads run.vm.stack) inst.sources
          ((wvmSourceRegs (proto.instrAt now.pc)).map now.slot)

/-- The word that is loaded for an immediate. -/
def wvmLoaded (operand : MALOperand) : Option (BitVec 64) :=
  match operand.payload with
  | .immInt value => some (wvmValueFromInt (value.setWidth 32))
  | .immFloat value => some value
  | _ => none

/-- The virtual machine has a value for the operand. -/
def Representable (operand : MALOperand) : Prop :=
  match operand.payload with
  | .immInt value => -2 ^ 31 ≤ value.toInt ∧ value.toInt ≤ 2 ^ 31 - 1
  | .immFloat value => wvmIsFloat value = true
  | _ => True

/-- The immediates among the operands have values, which are all the same, and no operand is left
over. -/
structure OperandsKept (inst : TOSInst) : Prop where
  exact : ∀ operand ∈ inst.sources, Representable operand
  shared : ∀ first ∈ inst.sources, ∀ second ∈ inst.sources, ∀ value value',
    wvmLoaded first = some value → wvmLoaded second = some value' → value = value'
  read : inst.sources.length ≤
    if (inst.desc.map fun desc => wvmNamed desc.mnemonic "neg" || wvmNamed desc.mnemonic "not") =
      some true then 1 else 2

/-! Immediates have one value. -/

section Values

/-- Widening a word again gives it back exactly if it is small. -/
theorem signExtend_setWidth_iff (value : BitVec 64) :
    (value.setWidth 32).signExtend 64 = value ↔
      -2 ^ 31 ≤ value.toInt ∧ value.toInt ≤ 2 ^ 31 - 1 := by
  rw [← BitVec.toInt_inj, BitVec.toInt_signExtend_of_le (by decide), BitVec.toInt_setWidth]
  have whole := BitVec.toInt_eq_toNat_bmod value
  have bound := value.isLt
  rw [whole]
  rw [Int.bmod_def, Int.bmod_def]
  omega

/-- A sign that is added is cut off again. -/
theorem setWidth_signExtend (int : BitVec 32) : (int.signExtend 64).setWidth 32 = int := by
  apply BitVec.eq_of_toInt_eq
  rw [BitVec.toInt_setWidth]
  -- The signed value fits in 32 bits, so cutting it off changes nothing.
  have same : (int.signExtend 64).toInt = int.toInt := BitVec.toInt_signExtend_of_le (by decide)
  rw [BitVec.toInt_eq_toNat_bmod] at same
  have bound := (int.signExtend 64).isLt
  have low := BitVec.le_toInt int
  have high := BitVec.toInt_lt (x := int)
  rw [← same] at low high ⊢
  rw [Int.bmod_def, Int.bmod_def] at *
  omega

/-- Only the loaded word is the value of an immediate, if the immediate has a value at all. -/
theorem operandReads_loaded {stack : Nat → BitVec 64} {operand : MALOperand}
    {value word : BitVec 64} (loaded : wvmLoaded operand = some word) :
    OperandReads stack operand value ↔ value = word ∧ Representable operand := by
  -- An immediate is an integer or a float, and nothing else is loaded.
  unfold wvmLoaded at loaded
  unfold OperandReads Representable
  cases payload : operand.payload with
  | immInt imm =>
    rw [payload] at loaded
    obtain rfl := Option.some.inj loaded
    dsimp only
    rw [← signExtend_setWidth_iff]
    constructor
    · intro reads
      obtain ⟨int, same, wide⟩ := reads
      rw [← wide, setWidth_signExtend]
      exact ⟨same, rfl⟩
    · intro exact_
      exact ⟨imm.setWidth 32, exact_.1, exact_.2⟩
  | immFloat bits =>
    rw [payload] at loaded
    obtain rfl := Option.some.inj loaded
    dsimp only
    constructor
    · intro reads
      exact ⟨reads.1, reads.1 ▸ reads.2⟩
    · intro exact_
      exact ⟨exact_.1, exact_.1 ▸ exact_.2⟩
  | _ =>
    rw [payload] at loaded
    cases loaded

end Values

/-! Lines: loads of the operands, and then the operation. -/

/-- The register that an operand is in when it has been loaded. -/
def wvmPlace (scratch : BitVec 16) (operand : MALOperand) : BitVec 16 :=
  match operand.payload with
  | .reg reg => wvmReg reg
  | _ => scratch

/-- The operands that are loaded after so many constants, one after the other. -/
inductive WVMLoads (scratch : BitVec 16) : Nat → List MALOperand → WVMLine → Prop where
  | nil (count : Nat) : WVMLoads scratch count [] .none
  | cons {count : Nat} {operand : MALOperand} {line rest : WVMLine} {operands : List MALOperand}
      (first : wvmOperandLine scratch count operand = some (line, wvmPlace scratch operand))
      (others : WVMLoads scratch (count + line.consts.length) operands rest) :
      WVMLoads scratch count (operand :: operands) (line.append rest)

section Lines

variable {scratch : BitVec 16} {count : Nat}

/-- An operand is read from its place. -/
theorem wvmOperandLine_place {operand : MALOperand} {line : WVMLine} {reg : BitVec 16}
    (made : wvmOperandLine scratch count operand = some (line, reg)) :
    reg = wvmPlace scratch operand := by
  -- Registers stay where they are, and all immediates go to the scratch register.
  unfold wvmOperandLine at made
  unfold wvmPlace
  cases payload : operand.payload with
  | reg reg =>
    rw [payload] at made
    exact ((Prod.mk.injEq ..).mp (Option.some.inj made)).2.symm
  | immInt value =>
    simp only [payload] at made
    split at made
    · exact ((Prod.mk.injEq ..).mp (Option.some.inj made)).2.symm
    · exact ((Prod.mk.injEq ..).mp (Option.some.inj made)).2.symm
  | immFloat value =>
    rw [payload] at made
    exact ((Prod.mk.injEq ..).mp (Option.some.inj made)).2.symm
  | _ =>
    rw [payload] at made
    cases made

/-- What an instruction emits: the loads of the operands that it reads, and then an operation that
reads the registers they are in, or nothing for a move of a register to itself. -/
inductive WVMOperation (scratch : BitVec 16) (count : Nat) (inst : TOSInst) : WVMLine → Prop where
  | self {operand : MALOperand} {reg : BitVec 32} (sources : inst.sources = [operand])
      (payload : operand.payload = .reg reg) : WVMOperation scratch count inst .none
  | reads {operands rest : List MALOperand} {line : WVMLine} {word : BitVec 64}
      (sources : inst.sources = operands ++ rest) (loads : WVMLoads scratch count operands line)
      (regs : wvmSourceRegs word = operands.map (wvmPlace scratch))
      (left : rest = [] ↔ inst.sources.length ≤
        if (inst.desc.map fun desc =>
          wvmNamed desc.mnemonic "neg" || wvmNamed desc.mnemonic "not") = some true then 1 else 2) :
      WVMOperation scratch count inst (line.push word)

/-- Nothing is loaded by an empty line. -/
theorem append_none (line : WVMLine) : line.append .none = line := by
  simp [WVMLine.append, WVMLine.none]

/-- The encoding of a word is that of its opcode. -/
theorem wvmGetEncoding_of_decoded {word : BitVec 64} {op : WVMOpcode}
    (decoded : wvmDecodeOp word = op.ctorIdx) :
    wvmGetEncoding (wvmDecodeOp word) = wvmOpcodeEncodings op := by
  rw [wvmGetEncoding, decoded, wvmOpcodes_ctorIdx]
  rfl

/-- A return reads its register. -/
theorem wvmSourceRegs_opR (source : BitVec 16) :
    wvmSourceRegs (wvmEncodeOpR .return source) = [source] := by
  rw [wvmSourceRegs, wvmGetEncoding_of_decoded (wvmDecodeOp_opR .return source)]
  show [wvmDecodeRA _] = _
  rw [wvmDecodeRA_opR]

/-- An instruction with one source reads that register. -/
theorem wvmSourceRegs_opRr {op : WVMOpcode} (kind : wvmOpcodeEncodings op = .opRr)
    (dst source : BitVec 16) : wvmSourceRegs (wvmEncodeOpRr op dst source) = [source] := by
  rw [wvmSourceRegs, wvmGetEncoding_of_decoded (wvmDecodeOp_opRr op dst source), kind]
  dsimp only
  rw [wvmDecodeRB_opRr]

/-- An instruction with two sources reads both registers. -/
theorem wvmSourceRegs_opRrr {op : WVMOpcode} (kind : wvmOpcodeEncodings op = .opRrr)
    (dst lhs rhs : BitVec 16) : wvmSourceRegs (wvmEncodeOpRrr op dst lhs rhs) = [lhs, rhs] := by
  rw [wvmSourceRegs, wvmGetEncoding_of_decoded (wvmDecodeOp_opRrr op dst lhs rhs), kind]
  dsimp only
  rw [wvmDecodeRB_opRrr, wvmDecodeRC_opRrr]

/-- One operand is loaded by its own line. -/
theorem WVMLoads.single {operand : MALOperand} {line : WVMLine} {reg : BitVec 16}
    (made : wvmOperandLine scratch count operand = some (line, reg)) :
    WVMLoads scratch count [operand] line := by
  rw [wvmOperandLine_place made] at made
  have loads := WVMLoads.cons made (.nil _)
  rw [append_none] at loads
  exact loads

/-- Two operands are loaded one after the other. -/
theorem WVMLoads.pair {first second : MALOperand} {line line' : WVMLine} {reg reg' : BitVec 16}
    (made : wvmOperandLine scratch count first = some (line, reg))
    (made' : wvmOperandLine scratch (count + line.consts.length) second = some (line', reg')) :
    WVMLoads scratch count [first, second] (line.append line') := by
  rw [wvmOperandLine_place made] at made
  exact .cons made (.single made')

/-- A move, a return, a negation or a complement reads one operand. -/
theorem WVMOperation.one {inst : TOSInst} {operand : MALOperand} {rest : List MALOperand}
    {line : WVMLine} {word : BitVec 64} {reg : BitVec 16}
    (sources : inst.sources = operand :: rest)
    (made : wvmOperandLine scratch count operand = some (line, reg))
    (regs : wvmSourceRegs word = [reg])
    (left : rest = [] ↔ inst.sources.length ≤
      if (inst.desc.map fun desc =>
        wvmNamed desc.mnemonic "neg" || wvmNamed desc.mnemonic "not") = some true then 1 else 2) :
    WVMOperation scratch count inst (line.push word) := by
  refine .reads (show inst.sources = [operand] ++ rest from sources) (.single made) ?_ left
  rw [regs, wvmOperandLine_place made]
  rfl

/-- An operation on the only operand. -/
theorem WVMOperation.only {inst : TOSInst} {operand : MALOperand} {line : WVMLine}
    {word : BitVec 64} {reg : BitVec 16} (sources : inst.sources = [operand])
    (made : wvmOperandLine scratch count operand = some (line, reg))
    (regs : wvmSourceRegs word = [reg]) : WVMOperation scratch count inst (line.push word) := by
  refine .one sources made regs (iff_of_true rfl ?_)
  rw [sources, List.length_singleton]
  split
  · exact Nat.le_refl 1
  · exact Nat.le_succ 1

/-- An operand that is not loaded is a register, and adds nothing. -/
theorem wvmOperandLine_elsewhere {operand : MALOperand} {line : WVMLine} {reg : BitVec 16}
    (made : wvmOperandLine scratch count operand = some (line, reg)) (elsewhere : reg ≠ scratch) :
    line = .none ∧ ∃ source, operand.payload = .reg source := by
  have place := wvmOperandLine_place made
  unfold wvmPlace at place
  -- Registers are read where they are, everything else through the scratch register.
  unfold wvmOperandLine at made
  cases payload : operand.payload with
  | reg source =>
    rw [payload] at made
    exact ⟨((Prod.mk.injEq ..).mp (Option.some.inj made)).1.symm, source, rfl⟩
  | _ =>
    rw [payload] at place
    exact absurd place elsewhere

/-- A move is no return. -/
theorem wvmNamed_mov {name suffix : String} (moves : suffix = "mov.rr" ∨ suffix = "mov.ri")
    (named : wvmNamed name suffix = true) : wvmNamed name "ret" = false := by
  simp only [wvmNamed, Bool.or_eq_true, beq_iff_eq] at named
  -- There are four names for each kind of move.
  rcases moves with rfl | rfl <;> rcases named with ((rfl | rfl) | rfl) | rfl <;> decide

/-- What is emitted for an instruction whose destination is not the scratch register. -/
theorem wvmInstLine_operation {inst : TOSInst} {line : WVMLine}
    (made : wvmInstLine scratch count inst = some line)
    (apart : ∀ operand ∈ inst.operands, ∀ reg, operand.payload = .reg reg →
      wvmReg reg ≠ scratch) : WVMOperation scratch count inst line := by
  unfold wvmInstLine at made
  cases described : inst.desc with
  | none =>
    rw [described] at made
    cases made
  | some desc =>
    rw [described] at made
    simp only [Option.bind_eq_bind, Option.bind_some, Option.pure_def] at made
    have sources : inst.sources =
        if wvmNamed desc.mnemonic "ret" then inst.operands else inst.operands.tail := by
      rw [TOSInst.sources, described]
    split at made
    · next named =>
      -- A move between registers.
      rw [wvmNamed_mov (.inl rfl) named, if_neg Bool.false_ne_true] at sources
      split at made
      · next type dst source shape =>
        rw [shape] at sources
        simp only [Option.bind_eq_some_iff, Option.some.injEq, Prod.exists] at made
        obtain ⟨loads, reg, placed, rfl⟩ := made
        exact .only sources placed (wvmSourceRegs_opRr rfl _ _)
      · cases made
    split at made
    · next named =>
      -- A move of an immediate, or of a register that may be the destination.
      rw [wvmNamed_mov (.inr rfl) named, if_neg Bool.false_ne_true] at sources
      split at made
      · next type dst source shape =>
        rw [shape] at sources
        simp only [Option.bind_eq_some_iff, Prod.exists] at made
        obtain ⟨loads, reg, placed, rest⟩ := made
        split at rest
        · next same =>
          have own := apart _ (by rw [shape]; exact List.mem_cons_self) dst rfl
          obtain ⟨nothing, reg, payload⟩ := wvmOperandLine_elsewhere placed (by rwa [same])
          rw [← Option.some.inj rest, nothing]
          exact .self sources payload
        · obtain rfl := Option.some.inj rest
          exact .only sources placed (wvmSourceRegs_opRr rfl _ _)
      · cases made
    split at made
    · next named =>
      rw [named, if_pos rfl] at sources
      split at made
      · next source shape =>
        rw [shape] at sources
        simp only [Option.bind_eq_some_iff, Option.some.injEq, Prod.exists] at made
        obtain ⟨loads, reg, placed, rfl⟩ := made
        exact .only sources placed (wvmSourceRegs_opR _)
      · cases made
    next other =>
    rw [if_neg other] at sources
    split at made
    · next type dst first rest shape =>
      rw [shape] at sources
      simp only [Option.bind_eq_some_iff, Prod.exists] at made
      obtain ⟨loads, reg, placed, made⟩ := made
      have length : inst.sources.length = rest.length + 1 := by
        rw [sources]
        rfl
      -- The two operations that ignore further operands are told apart from the others.
      have limit : (some desc).map (fun desc =>
          wvmNamed desc.mnemonic "neg" || wvmNamed desc.mnemonic "not") =
          some (wvmNamed desc.mnemonic "neg" || wvmNamed desc.mnemonic "not") := rfl
      split at made
      · next named =>
        obtain rfl := Option.some.inj made
        refine .one sources placed (wvmSourceRegs_opRr rfl _ _) ?_
        rw [described, limit, named, Bool.true_or, if_pos rfl, length]
        cases rest <;> simp
      next notNeg =>
      split at made
      · next named =>
        obtain rfl := Option.some.inj made
        refine .one sources placed (wvmSourceRegs_opRr rfl _ _) ?_
        rw [described, limit, named, Bool.or_true, if_pos rfl, length]
        cases rest <;> simp
      next notNot =>
      cases rest with
      | nil => cases made
      | cons second more =>
        simp only [Option.bind_eq_some_iff, Option.some.injEq, Prod.exists] at made
        obtain ⟨loads', reg', placed', op, meant, rfl⟩ := made
        refine .reads (show inst.sources = [first, second] ++ more from sources)
          (.pair placed placed') ?_ ?_
        · rw [wvmSourceRegs_opRrr (wvmBinaryOf_encoding meant), wvmOperandLine_place placed,
            wvmOperandLine_place placed']
          rfl
        · rw [described, limit, Bool.eq_false_iff.mpr notNeg, Bool.eq_false_iff.mpr notNot,
            Bool.or_false, if_neg (by decide), length]
          cases more <;> simp
    · cases made

end Lines

/-! Loads put the immediates into the scratch register. -/

/-- The registers behind the load of an operand. -/
def wvmAfterLoad (scratch : BitVec 16) (stack : Nat → BitVec 64) (operand : MALOperand) :
    Nat → BitVec 64 :=
  match wvmLoaded operand with
  | none => stack
  | some value => Function.update stack scratch.toNat value

/-- The run has gone through so many words of the code, and the registers are as given. -/
structure WVMRun.Past (run after : WVMRun) (words : Nat) (stack : Nat → BitVec 64) : Prop where
  result : after.result = none
  pc : after.pc.toNat = run.pc.toNat + words
  stack : after.vm.stack = stack

section Loads

variable {proto : WVMPrototype} {scratch : BitVec 16} {count : Nat}
  (whole : proto.instrCount.toNat = (proto.instrs.getD []).length)

include whole

/-- The word of a constant loads the constant that is pooled for it. -/
theorem wvmLoad_pooled {run : WVMRun} {front back cfront cback : List (BitVec 64)}
    {value : BitVec 64}
    (code : proto.instrs.getD [] = front ++
      (wvmEncodeOpRConst .loadConst scratch (BitVec.ofNat 32 cfront.length) :: back))
    (pool : proto.consts.getD [] = cfront ++ value :: cback) (room : cfront.length < 2 ^ 32)
    (going : run.result = none) (here : run.pc.toNat = front.length) :
    run.Past (wvmStep proto run) 1 (Function.update run.vm.stack scratch.toNat value) := by
  -- The word is at its place in the code, and the constant at its place in the pool.
  obtain ⟨inside, word⟩ := instrAt_of_split whole code here
  have wrote := wvmStep_loads (.inr rfl) going inside word
  have loaded : wvmLoadedValue proto (wvmEncodeOpRImm32 .loadConst scratch
      (BitVec.ofNat 32 cfront.length)) = value := by
    rw [wvmLoadedValue, if_neg (by rw [wvmDecodeOp_opRImm32]; decide), wvmDecodeConst_eq,
      ← wvmDecodeImm32_eq, wvmDecodeImm32_opRImm32, BitVec.toNat_ofNat, Nat.mod_eq_of_lt room, pool]
    simp
  rw [loaded] at wrote
  exact ⟨wrote.result, wrote.pc, wrote.stack⟩

/-- The line of one operand loads it, if it is an immediate. -/
theorem wvmOperandLine_run {operand : MALOperand} {line : WVMLine} {reg : BitVec 16}
    (made : wvmOperandLine scratch count operand = some (line, reg)) {run : WVMRun}
    {front back cfront cback : List (BitVec 64)}
    (code : proto.instrs.getD [] = front ++ (line.words ++ back))
    (pool : proto.consts.getD [] = cfront ++ (line.consts ++ cback))
    (counted : cfront.length = count) (room : count + line.consts.length ≤ 2 ^ 31)
    (going : run.result = none) (here : run.pc.toNat = front.length) :
    run.Past ((wvmStep proto)^[line.words.length] run) line.words.length
      (wvmAfterLoad scratch run.vm.stack operand) := by
  -- A register needs no word, a small integer one with its value, the others one with a constant.
  subst counted
  unfold wvmOperandLine at made
  unfold wvmAfterLoad wvmLoaded
  cases payload : operand.payload with
  | reg source =>
    rw [payload] at made
    obtain ⟨rfl, -⟩ := (Prod.mk.injEq ..).mp (Option.some.inj made)
    exact ⟨going, rfl, rfl⟩
  | immInt value =>
    simp only [payload] at made
    split at made
    · obtain ⟨rfl, -⟩ := (Prod.mk.injEq ..).mp (Option.some.inj made)
      obtain ⟨inside, word⟩ := instrAt_of_split whole code here
      have wrote := wvmStep_loads (.inl rfl) going inside word
      rw [wvmLoadedValue_small] at wrote
      exact ⟨wrote.result, wrote.pc, wrote.stack⟩
    · obtain ⟨rfl, -⟩ := (Prod.mk.injEq ..).mp (Option.some.inj made)
      simp only [List.length_singleton] at room
      exact wvmLoad_pooled whole code pool (by omega) going here
  | immFloat value =>
    rw [payload] at made
    obtain ⟨rfl, -⟩ := (Prod.mk.injEq ..).mp (Option.some.inj made)
    simp only [List.length_singleton] at room
    exact wvmLoad_pooled whole code pool (by omega) going here
  | _ =>
    rw [payload] at made
    cases made

/-- The lines of several operands load them one after the other. -/
theorem WVMLoads.run {operands : List MALOperand} {line : WVMLine}
    (loads : WVMLoads scratch count operands line) {run : WVMRun}
    {front back cfront cback : List (BitVec 64)}
    (code : proto.instrs.getD [] = front ++ (line.words ++ back))
    (pool : proto.consts.getD [] = cfront ++ (line.consts ++ cback))
    (counted : cfront.length = count) (room : count + line.consts.length ≤ 2 ^ 31)
    (going : run.result = none) (here : run.pc.toNat = front.length) :
    run.Past ((wvmStep proto)^[line.words.length] run) line.words.length
      (operands.foldl (wvmAfterLoad scratch) run.vm.stack) := by
  -- Induction on the operands, with the words and constants of the earlier ones in front.
  induction loads generalizing run front cfront with
  | nil count => exact ⟨going, rfl, rfl⟩
  | @cons count operand line rest operands first others next =>
    have words : (line.append rest).words = line.words ++ rest.words := rfl
    have consts : (line.append rest).consts = line.consts ++ rest.consts := rfl
    rw [words, List.append_assoc] at code
    rw [consts, List.append_assoc] at pool
    rw [consts, List.length_append] at room
    have one := wvmOperandLine_run whole first code pool counted (by omega) going here
    rw [← List.append_assoc] at code pool
    have more := next code pool (by rw [List.length_append, counted]) (by omega) one.result
      (by rw [one.pc, here, List.length_append])
    rw [words, List.length_append, Nat.add_comm, Function.iterate_add_apply]
    refine ⟨more.result, ?_, ?_⟩
    · rw [more.pc, one.pc]
      omega
    · rw [more.stack, one.stack, List.foldl_cons]

end Loads

/-! The operation behind the loads reads the registers as they leave them. -/

section Reads

variable {scratch : BitVec 16}

/-- The loads change no register but the scratch register. -/
theorem foldl_wvmAfterLoad_other {reg : Nat} (other : reg ≠ scratch.toNat)
    (operands : List MALOperand) (stack : Nat → BitVec 64) :
    operands.foldl (wvmAfterLoad scratch) stack reg = stack reg := by
  induction operands generalizing stack with
  | nil => rfl
  | cons operand rest ih =>
    rw [List.foldl_cons, ih, wvmAfterLoad]
    cases wvmLoaded operand with
    | none => rfl
    | some value => exact Function.update_of_ne other _ _

/-- The scratch register is left with the immediate that is loaded last. -/
theorem foldl_wvmAfterLoad_scratch (operands : List MALOperand) (stack : Nat → BitVec 64) :
    operands.foldl (wvmAfterLoad scratch) stack scratch.toNat =
      (operands.filterMap wvmLoaded).getLast?.getD (stack scratch.toNat) := by
  induction operands generalizing stack with
  | nil => rfl
  -- The last operand decides if it is loaded, and the ones in front otherwise.
  | cons operand rest ih =>
    rw [List.foldl_cons, ih, wvmAfterLoad]
    cases loaded : wvmLoaded operand with
    | none => rw [List.filterMap_cons_none loaded]
    | some value =>
      rw [List.filterMap_cons_some loaded, List.getLast?_cons, Option.getD_some]
      dsimp only
      rw [Function.update_self]

/-- An operand that is loaded is a register or an immediate. -/
theorem WVMLoads.supported {count : Nat} {operands : List MALOperand} {line : WVMLine}
    (loads : WVMLoads scratch count operands line) :
    ∀ operand ∈ operands, (∃ reg, operand.payload = .reg reg) ∨
      ∃ value, wvmLoaded operand = some value ∧ wvmPlace scratch operand = scratch := by
  induction loads with
  | nil => exact nofun
  | @cons count operand line rest operands first others ih =>
    rw [List.forall_mem_cons]
    refine ⟨?_, ih⟩
    -- The line that was made for an operand shows that its kind is one of these.
    unfold wvmOperandLine at first
    unfold wvmLoaded wvmPlace
    cases payload : operand.payload with
    | reg reg => exact .inl ⟨reg, rfl⟩
    | immInt value => exact .inr ⟨_, rfl, rfl⟩
    | immFloat value => exact .inr ⟨_, rfl, rfl⟩
    | _ =>
      rw [payload] at first
      cases first

/-- Every operand is read as it is exactly if the immediates have values, and the same one. -/
theorem reads_iff {count : Nat} {operands : List MALOperand} {line : WVMLine}
    (loads : WVMLoads scratch count operands line) (stack : Nat → BitVec 64)
    (apart : ∀ operand ∈ operands, ∀ reg, operand.payload = .reg reg →
      reg.toNat < 65534 ∧ wvmReg reg ≠ scratch) :
    (∀ operand ∈ operands, OperandReads stack operand
        (operands.foldl (wvmAfterLoad scratch) stack (wvmPlace scratch operand).toNat)) ↔
      (∀ operand ∈ operands, Representable operand) ∧
        ∀ first ∈ operands, ∀ second ∈ operands, ∀ value value',
          wvmLoaded first = some value → wvmLoaded second = some value' → value = value' := by
  have known := loads.supported
  -- An immediate is read as the last one that was loaded.
  have immediate : ∀ operand ∈ operands, ∀ value, wvmLoaded operand = some value →
      wvmPlace scratch operand = scratch →
      (OperandReads stack operand
        (operands.foldl (wvmAfterLoad scratch) stack (wvmPlace scratch operand).toNat) ↔
        (operands.filterMap wvmLoaded).getLast?.getD (stack scratch.toNat) = value ∧
          Representable operand) := by
    intro operand place value loaded here
    rw [operandReads_loaded loaded, here, foldl_wvmAfterLoad_scratch]
  have register : ∀ operand ∈ operands, ∀ reg, operand.payload = .reg reg →
      OperandReads stack operand
        (operands.foldl (wvmAfterLoad scratch) stack (wvmPlace scratch operand).toNat) := by
    intro operand place reg payload
    obtain ⟨small, other⟩ := apart operand place reg payload
    have same : (wvmPlace scratch operand) = wvmReg reg := by
      rw [wvmPlace, payload]
    rw [OperandReads, payload, same,
      foldl_wvmAfterLoad_other (fun equal => other (BitVec.eq_of_toNat_eq equal))]
    dsimp only
    rw [wvmReg_toNat, Nat.mod_eq_of_lt (by omega)]
  constructor
  · intro reads
    have last : ∀ operand ∈ operands, ∀ value, wvmLoaded operand = some value →
        (operands.filterMap wvmLoaded).getLast?.getD (stack scratch.toNat) = value ∧
          Representable operand := by
      intro operand place value loaded
      rcases known operand place with ⟨reg, payload⟩ | ⟨value', loaded', here⟩
      · rw [wvmLoaded, payload] at loaded
        cases loaded
      · exact (immediate operand place value loaded here).mp (reads operand place)
    constructor
    · intro operand place
      rcases known operand place with ⟨reg, payload⟩ | ⟨value, loaded, here⟩
      · rw [Representable, payload]
        trivial
      · exact (last operand place value loaded).2
    · intro first place second place' value value' loaded loaded'
      rw [← (last first place value loaded).1, ← (last second place' value' loaded').1]
  · intro kept operand place
    rcases known operand place with ⟨reg, payload⟩ | ⟨value, loaded, here⟩
    · exact register operand place reg payload
    · apply (immediate operand place value loaded here).mpr
      refine ⟨?_, kept.1 operand place⟩
      -- The last immediate is one of the operands.
      have some_ : value ∈ operands.filterMap wvmLoaded :=
        List.mem_filterMap.mpr ⟨operand, place, loaded⟩
      cases final : (operands.filterMap wvmLoaded).getLast? with
      | none =>
        rw [List.getLast?_eq_none_iff.mp final] at some_
        cases some_
      | some value' =>
        obtain ⟨second, place', loaded'⟩ := List.mem_filterMap.mp (List.mem_of_getLast? final)
        exact kept.2 second place' operand place value' value loaded' loaded

end Reads

section Faithful

variable {builder : WVMEncodeBuilder} {inst : TOSInst}

/-- A prototype of the words and constants of a builder. -/
def WVMEncodeBuilder.proto (builder : WVMEncodeBuilder) : WVMPrototype where
  name := none
  source := none
  instrCount := BitVec.ofNat 32 builder.instrs.length
  instrs := some builder.instrs
  constCount := BitVec.ofNat 32 builder.consts.length
  consts := some builder.consts
  strCount := 0
  strs := none
  upvalCount := 0
  upvalIsLocal := none
  upvalIndex := none
  regCount := builder.regCount
  paramCount := 0
  isVararg := 0
  protoCount := 0
  protos := none
  lineMap := none

/-- A builder with room is carried by the prototype made of it. -/
theorem WVMEncodeBuilder.carries (room : builder.Room) : WVMCarries builder builder.proto := by
  refine ⟨List.prefix_refl _, List.prefix_refl _, ?_⟩
  have words := room.1
  rw [wvmBuilderCapacity] at words
  show (BitVec.ofNat 32 builder.instrs.length).toNat = builder.instrs.length
  rw [BitVec.toNat_ofNat, Nat.mod_eq_of_lt (by omega)]

/-- What the operation of an instruction reads, when the loads before it have run. -/
theorem wvmOperation_reads {operands : List MALOperand} {line : WVMLine} {word : BitVec 64}
    (loads : WVMLoads builder.scratchReg builder.consts.length operands line)
    (regs : wvmSourceRegs word = operands.map (wvmPlace builder.scratchReg))
    (room : (builder.add (line.push word)).Room) {proto : WVMPrototype}
    (carries : WVMCarries (builder.add (line.push word)) proto) {run : WVMRun}
    (going : run.result = none) (here : run.pc.toNat = builder.instrs.length) :
    let now := (wvmStep proto)^[line.words.length] run
    run.Past now line.words.length (operands.foldl (wvmAfterLoad builder.scratchReg) run.vm.stack) ∧
      (wvmSourceRegs (proto.instrAt now.pc)).map now.slot =
        operands.map fun operand => operands.foldl (wvmAfterLoad builder.scratchReg) run.vm.stack
          (wvmPlace builder.scratchReg operand).toNat := by
  -- The code of the builder is a part of that of the prototype.
  intro now
  obtain ⟨later, code⟩ := carries.instrs
  obtain ⟨pooled, pool⟩ := carries.consts
  simp only [WVMEncodeBuilder.add, WVMLine.push, List.append_assoc] at code pool
  have fits := room.2
  simp only [WVMEncodeBuilder.add, WVMLine.push, List.length_append] at fits
  have past : run.Past now line.words.length _ :=
    loads.run carries.count code.symm pool.symm rfl fits going here
  refine ⟨past, ?_⟩
  have place : now.pc.toNat = (builder.instrs ++ line.words).length := by
    rw [past.pc, here, List.length_append]
  have split : proto.instrs.getD [] = (builder.instrs ++ line.words) ++ word :: later := by
    rw [← code, List.append_assoc]
    rfl
  rw [(instrAt_of_split carries.count split place).2, regs, List.map_map]
  apply List.map_congr_left
  intro operand _
  show now.vm.stack _ = _
  rw [past.stack]

/-- The operation reads the operands of the instruction exactly if they are kept. -/
theorem operandsFaithful_iff {line : WVMLine}
    (operation : WVMOperation builder.scratchReg builder.consts.length inst line)
    (room : (builder.add line).Room)
    (apart : ∀ operand ∈ inst.sources, ∀ reg, operand.payload = .reg reg →
      reg.toNat < 65534 ∧ wvmReg reg ≠ builder.scratchReg) :
    OperandsFaithful builder (builder.add line) inst ↔ OperandsKept inst := by
  cases operation with
  | @self operand reg sources payload =>
    -- Nothing is emitted, and the only operand is a register.
    have nothing : OperandsFaithful builder (builder.add .none) inst := by
      left
      rw [builder.add_none]
    refine iff_of_true nothing ⟨?_, ?_, ?_⟩
    · rw [sources, List.forall_mem_singleton, Representable, payload]
      trivial
    · intro first place second place' value value' loaded
      rw [sources, List.mem_singleton] at place
      rw [place, wvmLoaded, payload] at loaded
      cases loaded
    · rw [sources, List.length_singleton]
      split
      · exact Nat.le_refl 1
      · exact Nat.le_succ 1
  | @reads operands rest line word sources loads regs left =>
    have words : (builder.add (line.push word)).instrs.length =
        builder.instrs.length + line.words.length + 1 := by
      simp only [WVMEncodeBuilder.add, WVMLine.push, List.length_append, List.length_singleton]
      omega
    have steps : (builder.add (line.push word)).instrs.length - 1 - builder.instrs.length =
        line.words.length := by
      omega
    constructor
    · intro faithful
      rcases faithful with same | faithful
      · omega
      -- Run the words that have been emitted, from any registers.
      let run : WVMRun := {
        vm := ⟨fun _ => 0, 0, none, none, 0⟩
        pc := BitVec.ofNat 32 builder.instrs.length
        accesses := []
        result := none }
      have here : run.pc.toNat = builder.instrs.length := by
        have fits := room.1
        rw [wvmBuilderCapacity] at fits
        show (BitVec.ofNat 32 _).toNat = _
        rw [BitVec.toNat_ofNat, Nat.mod_eq_of_lt (by omega)]
      have carries := WVMEncodeBuilder.carries room
      obtain ⟨-, -, reads⟩ := faithful _ carries run rfl here
      rw [steps, (wvmOperation_reads loads regs room carries rfl here).2] at reads
      have length := reads.length_eq
      rw [sources, List.length_append, List.length_map] at length
      have none_left : rest = [] := by
        apply List.eq_nil_of_length_eq_zero
        omega
      have same : inst.sources = operands := by
        rw [sources, none_left, List.append_nil]
      rw [same, List.forall₂_map_right_iff, List.forall₂_same] at reads
      rw [same] at apart
      obtain ⟨exact_, shared⟩ := (reads_iff loads run.vm.stack apart).mp reads
      rw [← same] at exact_ shared
      exact ⟨exact_, shared, left.mp none_left⟩
    · intro kept
      right
      intro proto carries run going here
      have same : inst.sources = operands := by
        rw [sources, left.mpr kept.read, List.append_nil]
      obtain ⟨past, read⟩ := wvmOperation_reads loads regs room carries going here
      rw [steps]
      refine ⟨past.result, ?_, ?_⟩
      · rw [past.pc, here, words]
        omega
      · rw [read, same, List.forall₂_map_right_iff, List.forall₂_same]
        rw [same] at apart
        apply (reads_iff loads run.vm.stack apart).mpr
        rw [← same]
        exact ⟨kept.exact, kept.shared⟩

/-- What reads the operands of an instruction of a stream with small registers. -/
theorem emitted_faithful_iff {program : TOSProgram} {after : WVMEncodeBuilder}
    (place : inst ∈ program.instructions)
    (scratch : builder.scratchReg = wvmComputeRegCount program - 1) (room : builder.Room)
    (small : ∀ operand ∈ inst.operands, ∀ reg, operand.payload = .reg reg → reg.toNat < 65534)
    (emitted : wvmEmitFromMnemonic builder inst = some after) :
    OperandsFaithful builder after inst ↔ OperandsKept inst := by
  -- The scratch register is none of the registers of the instruction.
  have apart : ∀ operand ∈ inst.operands, ∀ reg, operand.payload = .reg reg →
      wvmReg reg ≠ builder.scratchReg := by
    intro operand among reg payload
    have bound := small operand among reg payload
    rw [scratch]
    apply ((wvmReg_inside_iff (program.mem_registers place among payload)).mpr ?_).2
    rw [Nat.mod_eq_of_lt (by omega)]
    exact bound
  have sources : ∀ operand ∈ inst.sources, operand ∈ inst.operands := by
    intro operand among
    rw [TOSInst.sources] at among
    split at among
    · cases among
    · split at among
      · exact among
      · exact List.mem_of_mem_tail among
  obtain ⟨line, made, rfl, fits⟩ := (wvmEmitFromMnemonic_iff room).mp emitted
  apply operandsFaithful_iff (wvmInstLine_operation made apart) fits
  intro operand among reg payload
  exact ⟨small operand (sources operand among) reg payload,
    apart operand (sources operand among) reg payload⟩

/-- The operands of an instruction of a stream with small registers reach the operation that is
emitted exactly if they are kept, where nothing has to reach it if nothing is emitted. -/
theorem wvmEmitFromMnemonic_faithful_iff (program : TOSProgram) (place : inst ∈ program.instructions)
    (scratch : builder.scratchReg = wvmComputeRegCount program - 1) (room : builder.Room)
    (small : ∀ operand ∈ inst.operands, ∀ reg, operand.payload = .reg reg → reg.toNat < 65534) :
    (∀ builder', wvmEmitFromMnemonic builder inst = some builder' →
        OperandsFaithful builder builder' inst) ↔
      ((wvmEmitFromMnemonic builder inst).isSome → OperandsKept inst) := by
  cases emitted : wvmEmitFromMnemonic builder inst with
  | none => simp
  | some after =>
    have faithful := emitted_faithful_iff place scratch room small emitted
    simp only [Option.some.injEq, forall_eq', Option.isSome_some, forall_const]
    exact faithful

end Faithful

/-- An addition of two operands. -/
def tosAddInst (lhs rhs : MALOperand) : TOSInst where
  id := 0
  blockId := 0
  order := 0
  desc := some ⟨0, "x64.add.rr", [], none, 1⟩
  operands := [malOperandReg 0 .i32, lhs, rhs]

/-- A stream of one instruction. -/
def tosSingle (inst : TOSInst) : TOSProgram where
  machine := none
  blocks := []
  instructions := [inst]
  orderKind := .input
  isFinalized := false

/-- A register and an immediate reach an addition. -/
theorem wvmEmitFromMnemonic_faithful_add :
    ∃ builder', wvmEmitFromMnemonic
        (wvmBuilderStart (tosSingle (tosAddInst (malOperandReg 1 .i32) (malOperandImmInt 2 .i32))))
        (tosAddInst (malOperandReg 1 .i32) (malOperandImmInt 2 .i32)) = some builder' ∧
      OperandsFaithful
        (wvmBuilderStart (tosSingle (tosAddInst (malOperandReg 1 .i32) (malOperandImmInt 2 .i32))))
        builder' (tosAddInst (malOperandReg 1 .i32) (malOperandImmInt 2 .i32)) := by
  have emits : (wvmEmitFromMnemonic
      (wvmBuilderStart (tosSingle (tosAddInst (malOperandReg 1 .i32) (malOperandImmInt 2 .i32))))
      (tosAddInst (malOperandReg 1 .i32) (malOperandImmInt 2 .i32))).isSome = true := by decide
  obtain ⟨after, emitted⟩ := Option.isSome_iff_exists.mp emits
  refine ⟨after, emitted, ?_⟩
  refine (wvmEmitFromMnemonic_faithful_iff (tosSingle _) (List.mem_singleton.mpr rfl) rfl
    ⟨Nat.zero_le _, Nat.zero_le _⟩ ?_).mpr ?_ after emitted
  -- The immediate is small, and it is the only one.
  rotate_left
  · intro _
    refine ⟨?_, ?_, by decide⟩
    · show ∀ operand ∈ [malOperandReg 1 .i32, malOperandImmInt 2 .i32], Representable operand
      rw [List.forall_mem_cons, List.forall_mem_singleton]
      exact ⟨trivial, show -2 ^ 31 ≤ (2#64).toInt ∧ (2#64).toInt ≤ 2 ^ 31 - 1 by decide⟩
    · intro first place second place' value value' loaded loaded'
      have one : ∀ operand ∈ [malOperandReg 1 .i32, malOperandImmInt 2 .i32], ∀ word,
          wvmLoaded operand = some word → word = wvmValueFromInt 2 := by
        rw [List.forall_mem_cons, List.forall_mem_singleton]
        exact ⟨nofun, fun word same => (Option.some.inj same).symm⟩
      rw [one first place value loaded, one second place' value' loaded']
  · show ∀ operand ∈ [malOperandReg 0 .i32, malOperandReg 1 .i32, malOperandImmInt 2 .i32],
      ∀ reg, operand.payload = .reg reg → reg.toNat < 65534
    simp [malOperandReg, malOperandImmInt]

/-- Of two different immediates, only the one that is loaded last reaches the operation. -/
theorem wvmEmitFromMnemonic_not_faithful :
    ¬ ∀ (program : TOSProgram) (inst : TOSInst) (builder builder' : WVMEncodeBuilder),
      inst ∈ program.instructions → builder.scratchReg = wvmComputeRegCount program - 1 →
      builder.Room →
      (∀ operand ∈ inst.operands, ∀ reg, operand.payload = .reg reg → reg.toNat < 65534) →
      wvmEmitFromMnemonic builder inst = some builder' → OperandsFaithful builder builder' inst := by
  intro claimed
  let inst := tosAddInst (malOperandImmInt 1 .i32) (malOperandImmInt 2 .i32)
  let builder := wvmBuilderStart (tosSingle inst)
  have emitted : (wvmEmitFromMnemonic builder inst).isSome = true := by decide
  obtain ⟨after, made⟩ := Option.isSome_iff_exists.mp emitted
  have room : builder.Room := ⟨Nat.zero_le _, Nat.zero_le _⟩
  have small : ∀ operand ∈ inst.operands, ∀ reg, operand.payload = .reg reg →
      reg.toNat < 65534 := by
    show ∀ operand ∈ [malOperandReg 0 .i32, malOperandImmInt 1 .i32, malOperandImmInt 2 .i32],
      ∀ reg, operand.payload = .reg reg → reg.toNat < 65534
    simp [malOperandReg, malOperandImmInt]
  have place : inst ∈ (tosSingle inst).instructions := List.mem_singleton.mpr rfl
  have kept := (emitted_faithful_iff place rfl room small made).mp
    (claimed (tosSingle inst) inst builder after place rfl room small made)
  -- Both immediates are in the scratch register.
  have same := kept.shared (malOperandImmInt 1 .i32) List.mem_cons_self (malOperandImmInt 2 .i32)
    (List.mem_cons_of_mem _ List.mem_cons_self) (wvmValueFromInt 1) (wvmValueFromInt 2) rfl rfl
  exact absurd same (by decide)

end Wirble
