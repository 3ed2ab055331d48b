import Wirble.Wvm.Runtime

/-! What verified bytecode touches when it is executed. -/

namespace Wirble

/-- The access is to a register, to a constant or to a place of the code. -/
def WVMAccess.Within (proto : WVMPrototype) : WVMAccess → Prop
  | readSlot slot | writeSlot slot => slot < proto.regCount.toNat
  | readConst index => index < proto.constCount.toNat
  | jump target => target ≤ proto.instrCount.toNat

instance (proto : WVMPrototype) : (access : WVMAccess) → Decidable (access.Within proto)
  | .readSlot slot | .writeSlot slot => inferInstanceAs (Decidable (slot < proto.regCount.toNat))
  | .readConst index => inferInstanceAs (Decidable (index < proto.constCount.toNat))
  | .jump target => inferInstanceAs (Decidable (target ≤ proto.instrCount.toNat))

/-- What the verifier does not check about the jump that an instruction makes. -/
def JumpInside (proto : WVMPrototype) (instr : BitVec 64) (run : WVMRun) : WVMOpcode → Prop
  | .jump => run.pc + wvmDecodeJump instr ≤ proto.instrCount
  | .jumpIfTrue => wvmDecodeRA instr < proto.regCount ∧
    (wvmIsTruthy (run.slot (wvmDecodeRA instr)) = true →
      run.pc + wvmDecodeRJump instr ≤ proto.instrCount)
  | .jumpIfFalse => wvmDecodeRA instr < proto.regCount ∧
    ((!wvmIsTruthy (run.slot (wvmDecodeRA instr))) = true →
      run.pc + wvmDecodeRJump instr ≤ proto.instrCount)
  | _ => True

/-- What the verifier checks about the operands of an instruction, by its encoding. -/
def OperandsInside (regCount : BitVec 16) (constCount : BitVec 32) (instr : BitVec 64) :
    WVMEncodingType → Prop
  | .opR | .opRImm32 => wvmDecodeRA instr < regCount
  | .opRr => wvmDecodeRA instr < regCount ∧ wvmDecodeRB instr < regCount
  | .opRrr => wvmDecodeRA instr < regCount ∧ wvmDecodeRB instr < regCount ∧
    wvmDecodeRC instr < regCount
  | .opRConst => wvmDecodeRA instr < regCount ∧ wvmDecodeConst instr < constCount
  | _ => True

section Instr

variable {proto : WVMPrototype} {instr : BitVec 64} {run : WVMRun}

/-- The verifier and the interpreter agree on the encoding of every opcode. -/
theorem WVMInstrValid.operands {regCount : BitVec 16} {constCount : BitVec 32}
    (valid : WVMInstrValid regCount constCount instr) {op : WVMOpcode}
    (decoded : wvmOpcodeOf instr = some op) :
    OperandsInside regCount constCount instr (wvmOpcodeEncodings op) := by
  -- The table is read at the number of the opcode.
  have encoding : wvmGetEncoding (wvmDecodeOp instr) = wvmOpcodeEncodings op := by
    rw [wvmOpcodeOf] at decoded
    rw [wvmGetEncoding, decoded]
    rfl
  rw [WVMInstrValid, wvmVerifyInstr, encoding] at valid
  split at valid
  · cases valid
  · cases kind : wvmOpcodeEncodings op <;>
      simp [kind, OperandsInside] at valid ⊢ <;> exact valid

/-- An instruction adds accesses to the record, and they are inside just when the condition holds. -/
def Touches (proto : WVMPrototype) (condition : Prop) (before after : WVMRun) : Prop :=
  ∃ made, after.accesses = before.accesses ++ made ∧
    ((∀ access ∈ made, access.Within proto) ↔ condition)

/-- Binary operations have three registers. -/
theorem encoding_of_binary {op : WVMOpcode} (binary : op ∈ wvmBinaryOpcodes) :
    wvmOpcodeEncodings op = .opRrr := by
  revert op
  decide

/-- The sixteen operations on two integers read two registers, and write a third if they succeed. -/
theorem wvmExecOp_binary {op : WVMOpcode} (binary : op ∈ wvmBinaryOpcodes) :
    wvmExecOp proto instr run op =
      match wvmExecBinaryInt op (run.slot (wvmDecodeRB instr)) (run.slot (wvmDecodeRC instr)) with
      | some value => (((run.read (wvmDecodeRB instr)).read (wvmDecodeRC instr)).write
          (wvmDecodeRA instr) value).next
      | none => ((run.read (wvmDecodeRB instr)).read (wvmDecodeRC instr)).fail
          "unsupported operand type in WVM interpreter" := by
  simp only [wvmBinaryOpcodes, List.mem_cons, List.not_mem_nil, or_false] at binary
  -- Each opcode has its own case in the loop, which is this one.
  rcases binary with rfl | rfl | rfl | rfl | rfl | rfl | rfl | rfl | rfl | rfl | rfl | rfl | rfl |
    rfl | rfl | rfl <;> rfl

/-- Binary operations do not jump. -/
theorem jumpInside_of_binary {op : WVMOpcode} (binary : op ∈ wvmBinaryOpcodes) :
    JumpInside proto instr run op := by
  -- The jumps are not among the operations on integers.
  cases op <;> trivial

/-- An instruction all of whose accesses are inside. -/
theorem Touches.inside {before after : WVMRun} {condition : Prop} (made : List WVMAccess)
    (grows : after.accesses = before.accesses ++ made)
    (within : ∀ access ∈ made, access.Within proto) (met : condition) :
    Touches proto condition before after :=
  ⟨made, grows, iff_of_true within met⟩

/-- A move of one register to another, or of a value computed from it. -/
theorem touches_unary {after : WVMRun} {condition : Prop}
    (inside : wvmDecodeRA instr < proto.regCount ∧ wvmDecodeRB instr < proto.regCount)
    (grows : after.accesses = run.accesses ++
      [.readSlot (wvmDecodeRB instr).toNat, .writeSlot (wvmDecodeRA instr).toNat])
    (met : condition) : Touches proto condition run after := by
  refine .inside _ grows ?_ met
  rw [List.forall_mem_cons, List.forall_mem_singleton]
  exact ⟨BitVec.lt_def.mp inside.2, BitVec.lt_def.mp inside.1⟩

/-- A load of a value that no register holds. -/
theorem touches_load {after : WVMRun} {condition : Prop}
    (inside : wvmDecodeRA instr < proto.regCount)
    (grows : after.accesses = run.accesses ++ [.writeSlot (wvmDecodeRA instr).toNat])
    (met : condition) : Touches proto condition run after := by
  refine .inside _ grows ?_ met
  rw [List.forall_mem_singleton]
  exact BitVec.lt_def.mp inside

/-- A binary operation touches its three registers and goes on to the next place. -/
theorem touches_binary {op : WVMOpcode} (binary : op ∈ wvmBinaryOpcodes)
    (inside : OperandsInside proto.regCount proto.constCount instr .opRrr) :
    Touches proto (JumpInside proto instr run op) run (wvmExecOp proto instr run op) := by
  obtain ⟨a, b, c⟩ := inside
  rw [wvmExecOp_binary binary]
  -- The third register is only written when both operands are integers.
  split
  · refine .inside [.readSlot (wvmDecodeRB instr).toNat, .readSlot (wvmDecodeRC instr).toNat,
      .writeSlot (wvmDecodeRA instr).toNat] (by simp) ?_ (jumpInside_of_binary binary)
    rw [List.forall_mem_cons, List.forall_mem_cons, List.forall_mem_singleton]
    exact ⟨BitVec.lt_def.mp b, BitVec.lt_def.mp c, BitVec.lt_def.mp a⟩
  · refine .inside [.readSlot (wvmDecodeRB instr).toNat, .readSlot (wvmDecodeRC instr).toNat]
      (by simp) ?_ (jumpInside_of_binary binary)
    rw [List.forall_mem_cons, List.forall_mem_singleton]
    exact ⟨BitVec.lt_def.mp b, BitVec.lt_def.mp c⟩

/-- A conditional jump reads its register, and jumps or not. -/
theorem touches_jumpIf {taken : Prop} [Decidable taken] :
    Touches proto (wvmDecodeRA instr < proto.regCount ∧
        (taken → run.pc + wvmDecodeRJump instr ≤ proto.instrCount)) run
      (if taken then (run.read (wvmDecodeRA instr)).jump (wvmDecodeRJump instr)
        else (run.read (wvmDecodeRA instr)).next) := by
  -- A jump that is taken is an access, and one that is not is none.
  by_cases holds : taken
  · refine ⟨[.readSlot (wvmDecodeRA instr).toNat, .jump (run.pc + wvmDecodeRJump instr).toNat], ?_,
      ?_⟩
    · simp [holds]
    · simp [holds, WVMAccess.Within, BitVec.lt_def, BitVec.le_def]
  · refine ⟨[.readSlot (wvmDecodeRA instr).toNat], ?_, ?_⟩
    · simp [holds]
    · simp [holds, WVMAccess.Within, BitVec.lt_def]

/-- One instruction, by its opcode. -/
theorem wvmExecOp_touches {op : WVMOpcode}
    (inside : OperandsInside proto.regCount proto.constCount instr (wvmOpcodeEncodings op)) :
    Touches proto (JumpInside proto instr run op) run (wvmExecOp proto instr run op) := by
  by_cases binary : op ∈ wvmBinaryOpcodes
  · rw [encoding_of_binary binary] at inside
    exact touches_binary binary inside
  · cases op
    case «return» =>
      have a := BitVec.lt_def.mp (show wvmDecodeRA instr < proto.regCount from inside)
      -- A return reads its register and hands the value on in the first slot.
      refine .inside [.readSlot (wvmDecodeRA instr).toNat, .writeSlot 0] (by simp [wvmExecOp]) ?_
        trivial
      rw [List.forall_mem_cons, List.forall_mem_singleton]
      exact ⟨a, show 0 < proto.regCount.toNat by omega⟩
    case move | neg | not => exact touches_unary inside (by simp [wvmExecOp]) trivial
    case loadImm | loadNil | loadTrue | loadFalse =>
      exact touches_load inside (by simp [wvmExecOp]) trivial
    case loadConst =>
      obtain ⟨a, constant⟩ := inside
      -- A constant is read from the pool by its index.
      refine .inside [.readConst (wvmDecodeConst instr).toNat,
        .writeSlot (wvmDecodeRA instr).toNat] (by simp [wvmExecOp]) ?_ trivial
      rw [List.forall_mem_cons, List.forall_mem_singleton]
      exact ⟨BitVec.lt_def.mp constant, BitVec.lt_def.mp a⟩
    case jump =>
      -- A jump touches nothing, and goes inside when its target does.
      refine ⟨[.jump (run.pc + wvmDecodeJump instr).toNat], by simp [wvmExecOp], ?_⟩
      rw [List.forall_mem_singleton]
      exact BitVec.le_def.symm
    case jumpIfTrue | jumpIfFalse => exact touches_jumpIf
    -- The other opcodes go on, stop or fail without touching anything.
    all_goals first
      | exact absurd (by decide) binary
      | exact .inside [] (by simp [wvmExecOp, wvmBinaryOpcodes]) (by simp) trivial

end Instr

/-- The instruction at a place of the code. -/
def WVMPrototype.instrAt (proto : WVMPrototype) (pc : BitVec 32) : BitVec 64 :=
  (proto.instrs.getD []).getD pc.toNat 0

/-- If the run is about to make a jump, then the jump is inside. -/
def NextJumpInside (proto : WVMPrototype) (run : WVMRun) : Prop :=
  run.result = none → run.pc < proto.instrCount →
    ∀ op, wvmOpcodeOf (proto.instrAt run.pc) = some op →
      JumpInside proto (proto.instrAt run.pc) run op

section Run

variable {proto : WVMPrototype}

/-- Every place of verified code holds an instruction that passed its check. -/
theorem instrAt_valid (verified : wvmVerifyPrototype proto = .ok ()) {pc : BitVec 32}
    (inside : pc < proto.instrCount) :
    WVMInstrValid proto.regCount proto.constCount (proto.instrAt pc) := by
  obtain ⟨-, valid⟩ := wvmVerifyPrototype_ok_iff.mp verified
  -- The loop of the verifier read the same place.
  refine valid _ (List.mem_map.mpr ⟨pc.toNat, ?_, rfl⟩)
  exact List.mem_range.mpr (BitVec.lt_def.mp inside)

/-- One round of the loop. -/
theorem wvmStep_touches (verified : wvmVerifyPrototype proto = .ok ()) (run : WVMRun) :
    Touches proto (NextJumpInside proto run) run (wvmStep proto run) := by
  rw [wvmStep]
  split
  · next ended =>
    -- A run with a result stays as it is.
    refine .inside [] (by simp) (by simp) fun going => ?_
    simp [going] at ended
  next going =>
  split
  · next inside =>
    have valid := instrAt_valid verified inside
    -- The frame records the counter and touches nothing.
    let framed : WVMRun := { run with vm := { run.vm with
      topFrame := some { pc := run.pc } } }
    show Touches proto _ run (wvmExecInstr proto (proto.instrAt run.pc) framed)
    cases decoded : wvmOpcodeOf (proto.instrAt run.pc) with
    | none =>
      rw [wvmExecInstr, decoded]
      refine .inside [] (by simp [framed]) (by simp) fun _ _ op other => ?_
      rw [decoded] at other
      cases other
    | some op =>
      -- The operands of a decoded instruction have been verified.
      obtain ⟨made, grows, within⟩ : Touches proto (JumpInside proto (proto.instrAt run.pc) framed op)
        framed _ := wvmExecOp_touches (valid.operands decoded)
      rw [wvmExecInstr, decoded]
      refine ⟨made, grows, within.trans ⟨fun jump _ _ other same => ?_, fun jump => ?_⟩⟩
      · rw [decoded] at same
        cases same
        exact jump
      · exact jump (by simpa using going) inside op decoded
  · next outside =>
    exact .inside [] (by simp) (by simp) fun _ inside => absurd inside outside

/-- All accesses of a run so far are inside just when all its jumps so far were. -/
theorem wvmExecute_touches (verified : wvmVerifyPrototype proto = .ok ()) (vm : WVMState)
    (rounds : Nat) :
    (∀ access ∈ (wvmExecute vm proto rounds).accesses, access.Within proto) ↔
      ∀ earlier < rounds, NextJumpInside proto (wvmExecute vm proto earlier) := by
  -- Induction on the rounds, each of which adds its own accesses and its own jump.
  induction rounds with
  | zero =>
    have start : (wvmExecute vm proto 0).accesses = [] := by
      rw [wvmExecute, wvmStart, verified]
    simp [start]
  | succ rounds next =>
    -- The last round adds its accesses to those of the rounds before.
    obtain ⟨made, grows, within⟩ := wvmStep_touches verified (wvmExecute vm proto rounds)
    rw [wvmExecute, grows, List.forall_mem_append, next, within]
    constructor
    · intro ⟨before, last⟩ earlier inside
      rcases Nat.lt_succ_iff_lt_or_eq.mp inside with old | rfl
      · exact before earlier old
      · exact last
    · intro all
      exact ⟨fun earlier inside => all earlier (by omega), all rounds (by omega)⟩

/-- Executing verified code only touches registers, constants and places of the code, in every run,
exactly when this holds of the jumps, which the verifier does not check. -/
theorem wvmExecute_inside_iff (verified : wvmVerifyPrototype proto = .ok ()) (vm : WVMState) :
    (∀ rounds, ∀ access ∈ (wvmExecute vm proto rounds).accesses, access.Within proto) ↔
      ∀ rounds, NextJumpInside proto (wvmExecute vm proto rounds) := by
  constructor
  · intro inside rounds
    -- The jump of a round is seen in the accesses of the next one.
    exact (wvmExecute_touches verified vm (rounds + 1)).mp (inside (rounds + 1)) rounds (by omega)
  · intro inside rounds
    exact (wvmExecute_touches verified vm rounds).mpr fun earlier _ => inside earlier

/-- A jump from a place of the code stays inside, whatever the registers hold. -/
def JumpChecked (proto : WVMPrototype) (pc : BitVec 32) : WVMOpcode → Prop
  | .jump => pc + wvmDecodeJump (proto.instrAt pc) ≤ proto.instrCount
  | .jumpIfTrue | .jumpIfFalse => wvmDecodeRA (proto.instrAt pc) < proto.regCount ∧
    pc + wvmDecodeRJump (proto.instrAt pc) ≤ proto.instrCount
  | _ => True

/-- A verifier that checked the jumps of the code as well would be sound. -/
theorem wvmExecute_inside_of_checked (verified : wvmVerifyPrototype proto = .ok ())
    (checked : ∀ pc < proto.instrCount, ∀ op, wvmOpcodeOf (proto.instrAt pc) = some op →
      JumpChecked proto pc op) (vm : WVMState) (rounds : Nat) :
    ∀ access ∈ (wvmExecute vm proto rounds).accesses, access.Within proto := by
  refine (wvmExecute_touches verified vm rounds).mpr fun earlier _ _ inside op decoded => ?_
  have jump := checked _ inside op decoded
  -- Whether a conditional jump is taken does not matter any more.
  cases op with
  | jump => exact jump
  | jumpIfTrue | jumpIfFalse => exact ⟨jump.1, fun _ => jump.2⟩
  | _ => trivial

/-- A run without a result shows the given frame, and one with a result shows none. -/
def WVMRun.Shows (run : WVMRun) (frame : WVMFrame) : Prop :=
  if run.result = none then run.vm.topFrame = some frame ∧ run.vm.frameDepth = 1
  else run.vm.topFrame = none ∧ run.vm.frameDepth = 0

/-- Instructions leave the frame alone unless they leave it. -/
theorem wvmExecInstr_shows {run : WVMRun} {frame : WVMFrame} (shows : run.Shows frame)
    (instr : BitVec 64) :
    (wvmExecInstr proto instr run).Shows frame := by
  -- A run that leaves has taken its frame away.
  have left : ∀ (run : WVMRun) (result : Bool), (run.leave result).Shows frame := by
    intro run result
    rw [WVMRun.Shows, if_neg (by exact Option.some_ne_none result)]
    exact ⟨rfl, rfl⟩
  rw [wvmExecInstr]
  cases wvmOpcodeOf instr with
  | none => exact left _ _
  | some op =>
    show (wvmExecOp proto instr run op).Shows frame
    by_cases binary : op ∈ wvmBinaryOpcodes
    -- A binary operation writes a register, or leaves.
    · rw [wvmExecOp_binary binary]
      split
      · exact shows
      · exact left _ _
    · cases op
      case jumpIfTrue | jumpIfFalse =>
        unfold wvmExecOp
        dsimp only
        split <;> exact shows
      -- The other instructions go on, return or are not known.
      all_goals first
        | exact absurd (by decide) binary
        | exact shows
        | exact left _ _

/-- A round of the loop leaves the place in the frame that a host would be shown. -/
theorem wvmStep_shows {run : WVMRun} (going : run.result = none)
    (depth : run.vm.frameDepth = 1) : (wvmStep proto run).Shows ⟨run.pc⟩ := by
  rw [wvmStep, if_neg (by simp [going])]
  split
  · refine wvmExecInstr_shows ?_ _
    rw [WVMRun.Shows, if_pos (by exact going)]
    exact ⟨rfl, depth⟩
  · -- Behind the code the run ends.
    rw [WVMRun.Shows, if_neg (by exact Option.some_ne_none true)]
    exact ⟨rfl, rfl⟩

/-- There is one frame as long as a run goes on. -/
theorem wvmExecute_frameDepth (vm : WVMState) (proto : WVMPrototype) (rounds : Nat)
    (goes : (wvmExecute vm proto rounds).result = none) :
    (wvmExecute vm proto rounds).vm.frameDepth = 1 := by
  induction rounds with
  | zero =>
    rw [wvmExecute, wvmStart] at goes ⊢
    split at goes
    · cases goes
    · rfl
  | succ rounds next =>
    by_cases going : (wvmExecute vm proto rounds).result = none
    · have shows := @wvmStep_shows proto _ going (next going)
      rw [WVMRun.Shows, if_pos (by exact goes)] at shows
      exact shows.2
    · -- A run that has ended does not go on again.
      rw [wvmExecute, wvmStep, if_pos (Option.isSome_iff_ne_none.mpr going)] at goes
      exact absurd goes going

/-- After each round the frame shows the instruction of that round, until the run ends and there is
no frame any more. -/
theorem wvmExecute_shows (vm : WVMState) (proto : WVMPrototype) (rounds : Nat)
    (going : (wvmExecute vm proto rounds).result = none) :
    let run := wvmExecute vm proto (rounds + 1)
    wvmFrameDepth run.vm = (if run.result = none then 1 else 0) ∧
      wvmFrameLine (wvmGetFrame run.vm 0) =
        if run.result = none then (wvmExecute vm proto rounds).pc else 0 := by
  have shows := @wvmStep_shows proto _ going (wvmExecute_frameDepth vm proto rounds going)
  intro run
  rw [WVMRun.Shows] at shows
  rw [wvmFrameDepth, wvmGetFrame, if_pos rfl, wvmFrameLine]
  -- A run that goes on has its frame, and one that has ended has none.
  split
  · next goes =>
    rw [if_pos (by exact goes)] at shows
    exact ⟨shows.2, congrArg (fun frame => (Option.map WVMFrame.pc frame).getD 0) shows.1⟩
  · next ended =>
    rw [if_neg (by exact ended)] at shows
    exact ⟨shows.2, congrArg (fun frame => (Option.map WVMFrame.pc frame).getD 0) shows.1⟩

end Run

/-- A virtual machine fresh from `wvmCreate`. -/
def wvmCreate : WVMState :=
  { stack := fun _ => 0, stackSize := 0, lastError := none, topFrame := none, frameDepth := 0 }

/-- A prototype of the given code, without constants or nested functions. -/
def codeOf (regCount : BitVec 16) (instrs : List (BitVec 64)) : WVMPrototype :=
  { name := none, source := none, instrCount := BitVec.ofNat 32 instrs.length
    instrs := some instrs, constCount := 0, consts := none, strCount := 0, strs := none
    upvalCount := 0, upvalIsLocal := none, upvalIndex := none, regCount := regCount
    paramCount := 0, isVararg := 0, protoCount := 0, protos := none, lineMap := none }

/-- A constant is loaded, and a jump on its register goes back for as long as it is true. -/
def poll : WVMPrototype :=
  { codeOf 1 [9, 0xFFFFFFFF000006] with
    constCount := 1, consts := some [wvmValueFromInt 5] }

/-- Every jump of the loop goes back to its own start. -/
theorem poll_inside (run : WVMRun) : NextJumpInside poll run := by
  intro _ inside op decoded
  -- There are two places, of which the second one jumps to the first one.
  -- The counter is inside, so it is one of two.
  have places : run.pc = 0 ∨ run.pc = 1 := by
    have bound : run.pc.toNat < 2 := BitVec.lt_def.mp inside
    rcases Nat.lt_succ_iff_lt_or_eq.mp bound with first | second
    · exact .inl (BitVec.eq_of_toNat_eq (Nat.lt_one_iff.mp first))
    · exact .inr (BitVec.eq_of_toNat_eq second)
  rcases places with first | second
  · rw [first] at decoded ⊢
    obtain rfl : .loadConst = op := Option.some.inj
      ((show wvmOpcodeOf (poll.instrAt 0) = some .loadConst by decide).symm.trans decoded)
    trivial
  -- The second place jumps back by two.
  · rw [second] at decoded ⊢
    obtain rfl : .jumpIfTrue = op := Option.some.inj
      ((show wvmOpcodeOf (poll.instrAt 1) = some .jumpIfTrue by decide).symm.trans decoded)
    refine ⟨by decide, fun _ => ?_⟩
    rw [second]
    decide

/-- The loop reads its constant and its register, and touches nothing else however long it runs. -/
theorem wvmExecute_inside_iff_poll :
    (∀ rounds, ∀ access ∈ (wvmExecute wvmCreate poll rounds).accesses, access.Within poll) ∧
      (wvmExecute wvmCreate poll 3).accesses =
        [.readConst 0, .writeSlot 0, .readSlot 0, .jump 0, .readConst 0, .writeSlot 0] :=
  ⟨(wvmExecute_inside_iff (by decide) wvmCreate).mpr fun _ => poll_inside _, by decide⟩

/-- A conditional jump on register five, in code that declares one register. -/
def peek : WVMPrototype := codeOf 1 [0x506]

/-- The verifier accepts the conditional jump, and executing it reads outside the registers. -/
theorem wvmExecute_not_inside :
    ¬ ∀ proto : WVMPrototype, wvmVerifyPrototype proto = .ok () → ∀ (vm : WVMState) rounds,
      ∀ access ∈ (wvmExecute vm proto rounds).accesses, access.Within proto := by
  intro claimed
  -- The first instruction looks at register five.
  have read : .readSlot 5 ∈ (wvmExecute wvmCreate peek 1).accesses := by decide
  have inside := claimed peek (by decide) wvmCreate 1 _ read
  revert inside
  decide

end Wirble
