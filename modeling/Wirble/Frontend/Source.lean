import Wirble.Frontend.Backend
import Wirble.Frontend.Folding

/-! What running a source text returns, from its tree to register zero. -/

namespace Wirble

/-! The bytecode of a literal. -/

section Literal

variable {options : WirbleCompileOptions} {kind : MDSTargetKind} {value : BitVec 64}

/-- Literals of 32 bits are loaded as immediates, and others from the constant pool. -/
def wvmImmediate (value : BitVec 64) : Prop :=
  -2 ^ 31 ≤ value.toInt ∧ value.toInt ≤ 2 ^ 31 - 1

instance (value : BitVec 64) : Decidable (wvmImmediate value) :=
  inferInstanceAs (Decidable (_ ∧ _))

/-- The instruction that loads a literal into register one. -/
def wvmLiteralLoad (value : BitVec 64) : BitVec 64 :=
  if wvmImmediate value then wvmEncodeOpRImm32 .loadImm 1 (value.setWidth 32)
  else wvmEncodeOpRImm32 .loadConst 1 0

def wvmLiteralConsts (value : BitVec 64) : List (BitVec 64) :=
  if wvmImmediate value then [] else [wvmValueFromInt (value.setWidth 32)]

/-- The bytecode of a literal: load it, move it to register zero, and return this register. -/
def wvmLiteral (value : BitVec 64) (sourceName : CString) : WVMPrototype where
  name := some (cString ("main".toUTF8.data.toList.map (·.toBitVec)))
  source := some sourceName
  instrCount := 3
  instrs := some [wvmLiteralLoad value, wvmEncodeOpRr .move 0 1, wvmEncodeOpR .return 0]
  constCount := BitVec.ofNat 32 (wvmLiteralConsts value).length
  consts := some (wvmLiteralConsts value)
  strCount := 0
  strs := none
  upvalCount := 0
  upvalIsLocal := none
  upvalIndex := none
  regCount := 2
  paramCount := 0
  isVararg := 0
  protoCount := 0
  protos := none
  lineMap := some [0, 0, 0]

/-- The two instructions that are selected for a literal. -/
structure LiteralStream (value : BitVec 64) (program : TOSProgram) (load ret : MDSInstruction) :
    Prop where
  instructions : program.instructions =
    [⟨0, 0, 0, some load, [malOperandReg 0 .i32, malOperandImmInt value.toInt .i32]⟩,
      ⟨1, 0, 1, some ret, [malOperandReg 0 .i32]⟩]
  load : wvmNamed load.mnemonic "mov.rr" = false ∧ wvmNamed load.mnemonic "mov.ri" = true
  ret : wvmNamed ret.mnemonic "mov.rr" = false ∧ wvmNamed ret.mnemonic "mov.ri" = false ∧
    wvmNamed ret.mnemonic "ret" = true

/-- Every target selects a load and a return. -/
theorem mdsLowerFromMAL_literal (kind : MDSTargetKind) (value : BitVec 64)
    (triple : Option String) :
    ∃ program load ret, mdsLowerFromMAL ⟨[malLiteral value], triple⟩
        (some (mdsCreateSelector (mdsLoadMachine kind))) (mdsLoadMachine kind) = some program ∧
      LiteralStream value (tosBuildFromMDS program.laidOut).finalized load ret := by
  cases kind <;>
    exact ⟨_, _, _, rfl, rfl, ⟨by decide, by decide⟩, by decide, by decide, by decide⟩

/-- Register one is left for loading. -/
theorem LiteralStream.regCount {program : TOSProgram} {load ret : MDSInstruction}
    (stream : LiteralStream value program load ret) : wvmComputeRegCount program = 2 := by
  have largest : wvmMaxReg program = 0 := by
    rw [wvmMaxReg, stream.instructions]
    rfl
  rw [wvmComputeRegCount, largest]
  rfl

/-- The bytecode of the two instructions. -/
theorem LiteralStream.encoded {program : TOSProgram} {load ret : MDSInstruction}
    (stream : LiteralStream value program load ret) (sourceName : CString) :
    wvmPrototypeFromTOS program (some (cString ("main".toUTF8.data.toList.map (·.toBitVec))))
      (some sourceName) = some (wvmLiteral value sourceName) := by
  have word : BitVec.ofInt 64 value.toInt = value := BitVec.ofInt_toInt
  -- The function uses one register, so the scratch register is the second.
  have start : wvmBuilderStart program = ⟨[], [], 1, 2⟩ := by
    rw [wvmBuilderStart, stream.regCount]
    rfl
  -- The literal is an immediate, or a constant of the pool.
  have loaded : wvmOperandToReg ⟨[], [], 1, 2⟩ (malOperandImmInt value.toInt .i32) =
      some (⟨[wvmLiteralLoad value], wvmLiteralConsts value, 1, 2⟩, 1) := by
    rw [malOperandImmInt, word, wvmLiteralLoad, wvmLiteralConsts]
    by_cases small : wvmImmediate value
    · rw [if_pos small, if_pos small, wvmOperandToReg]
      exact if_pos small
    · rw [if_neg small, if_neg small, wvmOperandToReg]
      exact if_neg small
  -- The first instruction moves the literal to its register.
  have first : wvmEmitFromMnemonic ⟨[], [], 1, 2⟩
      ⟨0, 0, 0, some load, [malOperandReg 0 .i32, malOperandImmInt value.toInt .i32]⟩ =
        some ⟨[wvmLiteralLoad value, wvmEncodeOpRr .move 0 1], wvmLiteralConsts value, 1, 2⟩ := by
    simp only [wvmEmitFromMnemonic, Option.bind_eq_bind, Option.bind_some, stream.load.1,
      stream.load.2, malOperandReg, loaded]
    rfl
  -- The second instruction returns it.
  have second : wvmEmitFromMnemonic
      ⟨[wvmLiteralLoad value, wvmEncodeOpRr .move 0 1], wvmLiteralConsts value, 1, 2⟩
      ⟨1, 0, 1, some ret, [malOperandReg 0 .i32]⟩ =
        some ⟨[wvmLiteralLoad value, wvmEncodeOpRr .move 0 1, wvmEncodeOpR .return 0],
          wvmLiteralConsts value, 1, 2⟩ := by
    simp only [wvmEmitFromMnemonic, Option.bind_eq_bind, Option.bind_some, stream.ret.1,
      stream.ret.2.1, stream.ret.2.2]
    rfl
  rw [wvmPrototypeFromTOS, stream.instructions, start]
  simp only [List.foldlM_cons, List.foldlM_nil, first, second, Option.bind_eq_bind,
    Option.bind_some]
  rfl

/-- The verifier accepts the bytecode of a literal. -/
theorem wvmLiteral_verified (value : BitVec 64) (sourceName : CString) :
    wvmVerifyPrototype (wvmLiteral value sourceName) = .ok () := by
  refine wvmVerifyPrototype_ok_iff.mpr ⟨nofun, fun word member => ?_⟩
  rw [wvmArray_eq rfl] at member
  have places : word = wvmLiteralLoad value ∨ word = wvmEncodeOpRr .move 0 1 ∨
      word = wvmEncodeOpR .return 0 := by
    simpa [wvmLiteral] using member
  have scratch : (1 : BitVec 16) < (wvmLiteral value sourceName).regCount :=
    (by decide : (1 : BitVec 16) < 2)
  rcases places with rfl | rfl | rfl
  · -- Where the pool is used, it has one constant.
    rw [wvmLiteralLoad]
    split
    · exact instrValid_of_operands (wvmDecodeOp_opRImm32 ..) (by
        show wvmDecodeRA _ < _
        rw [wvmDecodeRA_opRImm32]
        exact scratch)
    · rename_i wide
      refine instrValid_of_operands (wvmDecodeOp_opRImm32 ..) ⟨?_, ?_⟩
      · rw [wvmDecodeRA_opRImm32]
        exact scratch
      · show _ < BitVec.ofNat 32 (wvmLiteralConsts value).length
        rw [wvmLiteralConsts, if_neg wide]
        show wvmDecodeConst (wvmEncodeOpRImm32 .loadConst 1 0) < 1
        decide
  -- The move and the return name registers zero and one.
  · have inside : wvmDecodeRA (wvmEncodeOpRr .move 0 1) < (2 : BitVec 16) ∧
        wvmDecodeRB (wvmEncodeOpRr .move 0 1) < 2 := by decide
    exact instrValid_of_operands (wvmDecodeOp_opRr .move 0 1) inside
  · have inside : wvmDecodeRA (wvmEncodeOpR .return 0) < (2 : BitVec 16) := by decide
    exact instrValid_of_operands (wvmDecodeOp_opR .return 0) inside

/-- The module of a literal is compiled to its bytecode, whatever the options. -/
theorem wirbleEmit_literal (options : WirbleCompileOptions) (kind : MDSTargetKind)
    (value : BitVec 64) (triple : Option String) (sourceName : CString) :
    wirbleEmit options kind ⟨[malLiteral value], triple⟩ sourceName =
      .ok (wvmLiteral value sourceName) := by
  -- The module is lowered to a load and a return, which the verifier accepts.
  obtain ⟨program, load, ret, lowered, stream⟩ := mdsLowerFromMAL_literal kind value triple
  have described := mdsLowerFromMAL_described lowered
  have valid := (tosFinalizeProgram_succeeds described).2.1
  have machine : mdsValidateMachine (mdsLoadMachine kind) = true := by cases kind <;> rfl
  have accepted : (wvmVerifyPrototype (wvmLiteral value sourceName)).isOk = true := by
    rw [wvmLiteral_verified]
    rfl
  simp only [wirbleEmit, machine, lowered, wirbleFinalize_described options described,
    Except.bind, wirbleEncode, valid, stream.encoded, accepted, Bool.not_true, Bool.and_false,
    Bool.false_eq_true, if_false]

/-- The load of a literal leaves its lower half as an integer. -/
theorem wvmLoadedValue_literal (value : BitVec 64) (sourceName : CString) :
    wvmLoadedValue (wvmLiteral value sourceName) (wvmLiteralLoad value) =
      wvmValueFromInt (value.setWidth 32) := by
  by_cases small : wvmImmediate value
  · rw [wvmLiteralLoad, if_pos small]
    exact wvmLoadedValue_small 1 value
  · -- The only constant is the lower half, too.
    have other : wvmDecodeOp (wvmEncodeOpRImm32 .loadConst 1 0) ≠ WVMOpcode.loadImm.ctorIdx := by
      decide
    have index : (wvmDecodeConst (wvmEncodeOpRImm32 .loadConst 1 0)).toNat = 0 := by decide
    have pool : (wvmLiteral value sourceName).consts =
        some [wvmValueFromInt (value.setWidth 32)] := by
      show some (wvmLiteralConsts value) = _
      rw [wvmLiteralConsts, if_neg small]
    rw [wvmLiteralLoad, if_neg small, wvmLoadedValue, if_neg other, index, pool]
    rfl

/-- A return leaves all registers on the stack. -/
theorem wvmStep_return_size {proto : WVMPrototype} {source : BitVec 16} {run : WVMRun}
    (going : run.result = none) (inside : run.pc < proto.instrCount)
    (here : proto.instrAt run.pc = wvmEncodeOpR .return source) :
    (wvmStep proto run).vm.stackSize = proto.regCount.setWidth 32 := by
  obtain ⟨framed, -, -, -, step⟩ := wvmStep_at going inside
  rw [step, here, wvmExecInstr, wvmOpcodeOf_eq (wvmDecodeOp_opR .return source)]
  rfl

/-- The bytecode of a literal returns its lower half. -/
theorem wvmExecute_literal (vm : WVMState) (value : BitVec 64) (sourceName : CString) :
    (wvmExecute vm (wvmLiteral value sourceName) 3).result = some true ∧
      wvmGetReg (wvmExecute vm (wvmLiteral value sourceName) 3).vm 0 =
        wvmValueFromInt (value.setWidth 32) := by
  have regs : (wvmLiteral value sourceName).regCount = 2 := rfl
  generalize made : wvmLiteral value sourceName = proto
  rw [made] at regs
  have code : proto.instrs.getD [] =
      [wvmLiteralLoad value, wvmEncodeOpRr .move 0 1, wvmEncodeOpR .return 0] := by
    rw [← made]
    rfl
  have count : proto.instrCount.toNat = (proto.instrs.getD []).length := by
    rw [← made]
    rfl
  have start : (wvmExecute vm proto 0).result = none ∧ (wvmExecute vm proto 0).pc = 0 := by
    rw [wvmExecute, wvmStart, ← made, wvmLiteral_verified]
    exact ⟨rfl, rfl⟩
  -- First the literal is loaded.
  have place : (wvmExecute vm proto 0).pc.toNat = ([] : List (BitVec 64)).length := by
    rw [start.2]
    rfl
  obtain ⟨inside, here⟩ := instrAt_of_split count
    (show _ = [] ++ wvmLiteralLoad value :: [wvmEncodeOpRr .move 0 1, wvmEncodeOpR .return 0] from
      code) place
  have loaded : (wvmExecute vm proto 0).Wrote 1 (wvmValueFromInt (value.setWidth 32))
      (wvmExecute vm proto 1) := by
    rw [← wvmLoadedValue_literal value sourceName, made]
    unfold wvmLiteralLoad at here ⊢
    -- A small literal is loaded by one word, any other one from the pool.
    by_cases small : wvmImmediate value
    · rw [if_pos small] at here ⊢
      exact wvmStep_loads (.inl rfl) start.1 inside here
    · rw [if_neg small] at here ⊢
      exact wvmStep_loads (.inr rfl) start.1 inside here
  -- Then it is moved to the first register.
  have place : (wvmExecute vm proto 1).pc.toNat = [wvmLiteralLoad value].length := by
    rw [loaded.pc, start.2]
    rfl
  obtain ⟨inside, here⟩ := instrAt_of_split count
    (show _ = [wvmLiteralLoad value] ++ wvmEncodeOpRr .move 0 1 :: [wvmEncodeOpR .return 0] from
      code) place
  have main := @wvmStep_main proto .copy 0 [1] _ (by decide) rfl _ loaded.result inside here
  -- The copy has what was loaded as output.
  have output : wvmOutput .copy ([1].map (wvmExecute vm proto 1).slot) =
      some (wvmValueFromInt (value.setWidth 32)) := by
    show some ((wvmExecute vm proto 1).vm.stack 1) = _
    rw [loaded.stack]
    rfl
  rw [output] at main
  have moved : (wvmExecute vm proto 1).Wrote 0 (wvmValueFromInt (value.setWidth 32))
      (wvmExecute vm proto 2) := main
  -- The first register is returned.
  have place : (wvmExecute vm proto 2).pc.toNat =
      [wvmLiteralLoad value, wvmEncodeOpRr .move 0 1].length := by
    rw [moved.pc, loaded.pc, start.2]
    rfl
  obtain ⟨inside, here⟩ := instrAt_of_split count
    (show _ = [wvmLiteralLoad value, wvmEncodeOpRr .move 0 1] ++ wvmEncodeOpR .return 0 :: [] from
      code) place
  obtain ⟨ended, stack⟩ := @wvmStep_return proto 0 0 _ rfl _ moved.result inside here
  -- The return has left two slots.
  have size : (wvmExecute vm proto 3).vm.stackSize = 2 := by
    have left := wvmStep_return_size moved.result inside here
    rw [regs] at left
    exact left
  refine ⟨ended, ?_⟩
  rw [wvmGetReg, size, if_neg (by decide)]
  show (wvmStep proto _).vm.stack 0 = _
  rw [stack, Function.update_self]
  show (wvmExecute vm proto 2).vm.stack 0 = _
  rw [moved.stack, show (0 : BitVec 16).toNat = 0 from rfl, Function.update_self]

end Literal

/-! Source texts. -/

/-- The graph of a literal passes the verifier, and a return node is made in it. -/
theorem wirbleReturn_literal (options : WirbleCompileOptions) (value : BitVec 64) :
    ∃ ctx, wirbleReturn options (wirbleLowerExpr wirbleStarted (.int value)).1 0 (some 1) =
      .ok ctx := by
  rw [wirbleReturn]
  cases options.verifyIR with
  | true => exact ⟨_, rfl⟩
  | false => exact ⟨_, rfl⟩

/-- A tree that folds to a literal leaves its lower half in register zero. -/
theorem wirbleExecuteSource_literal (equivalent : WILContext → Option Nat → Option Nat → Bool)
    (lib : Equinox) {options : WirbleCompileOptions} (stock : StockRules options)
    {kind : MDSTargetKind} (machine : wirbleMachine (wirbleTargetOrDefault options) = some kind)
    {expr : WirbleExpr} {value : BitVec 64} (known : wirbleExprIsConst expr = some value)
    (sourceName : Option CString) :
    ∃ enough, ∀ fuel, enough ≤ fuel →
      wirbleExecuteSource equivalent lib fuel options expr sourceName =
        some (.ok (wvmValueFromInt (value.setWidth 32))) := by
  obtain ⟨enough, built⟩ := wirbleBuildPipelineArtifacts_literal equivalent lib stock
    (wirbleExprFoldConstants_int.mpr known) sourceName
  refine ⟨max enough 3, fun fuel more => ?_⟩
  obtain ⟨ctx, returned⟩ := wirbleReturn_literal options value
  have compiled : wirbleLiteral options value sourceName = .ok (wvmLiteral value
      (sourceName.getD (cString ("<input>".toUTF8.data.toList.map (·.toBitVec))))) := by
    simp only [wirbleLiteral, machine, returned, Except.bind, wirbleEmit_literal]
  rw [wirbleExecuteSource, built fuel (by omega), compiled]
  obtain ⟨ended, stack⟩ := wvmExecute_literal wvmCreate value
    (sourceName.getD (cString ("<input>".toUTF8.data.toList.map (·.toBitVec))))
  -- Fuel that is left over changes nothing.
  have same := wvmExecute_more (show 3 ≤ fuel by omega) (Option.isSome_of_eq_some ended)
  simp only [wirbleExecutePrototype, same, ended, stack, Option.map_some, if_true]

/-- What running an expression is to come to: its value in words of 32 bits, or an error where it
divides by zero. -/
def WirbleExpr.Outcome (expr : WirbleExpr) : Except String (BitVec 64) → Prop
  | .ok value => expr.exact.isSome = true ∧ value = wvmValueFromInt expr.eval32
  | .error _ => expr.exact = none

/-- On every target, at every level and with rules among the stock ones, running an expression
returns: an expression that has a value in 64 bits leaves the lower half of it in register zero, and
any other one is an error. Folding wraps around where it overflows 64 bits, which C leaves undefined.
For trees that fold as they are evaluated this is the value of the tree, computed in words of 32
bits, and nothing but a division by zero is an error. -/
theorem wirbleExecuteSource_value (equivalent : WILContext → Option Nat → Option Nat → Bool)
    (lib : Equinox) {options : WirbleCompileOptions} (stock : StockRules options)
    {kind : MDSTargetKind} (machine : wirbleMachine (wirbleTargetOrDefault options) = some kind)
    (expr : WirbleExpr) (sourceName : Option CString) :
    ∃ enough outcome,
      (∀ fuel, enough ≤ fuel →
        wirbleExecuteSource equivalent lib fuel options expr sourceName = some outcome) ∧
      (∀ value, wirbleExprIsConst expr = some value →
        outcome = .ok (wvmValueFromInt (value.setWidth 32))) ∧
      (wirbleExprIsConst expr = none → ∃ text, outcome = .error text) ∧
      (expr.FoldsWithin → expr.Outcome outcome) := by
  cases known : wirbleExprIsConst expr with
  | some value =>
    obtain ⟨enough, runs⟩ := wirbleExecuteSource_literal equivalent lib stock machine known
      sourceName
    refine ⟨enough, _, runs, ?_, nofun, fun within => ?_⟩
    · intro word same
      cases same
      rfl
    · -- The folded value has the lower half of the tree's own.
      have folds := within.folds
      refine ⟨?_, ?_⟩
      · rw [folds.exact, known]
        rfl
      · rw [(folds.right value known).low]
  -- Without a value the tree keeps a division, and running it fails.
  | none =>
    rcases wirbleExprFoldConstants_cases expr with ⟨value, folded⟩ | divides
    · rw [wirbleExprFoldConstants_int.mp folded] at known
      cases known
    · obtain ⟨enough, text, runs⟩ := wirbleExecuteSource_division equivalent lib stock divides
        sourceName
      refine ⟨enough, .error text, runs, nofun, fun _ => ⟨text, rfl⟩, fun within => ?_⟩
      show expr.exact = none
      rw [within.folds.exact, known]
      rfl

/-- The difference of two products, above 32 bits in between. -/
def wirbleWide : WirbleExpr :=
  .binary .sub (.binary .mul (.int 100000) (.int 100000)) (.binary .mul (.int 100000) (.int 99999))

/-- The default options compile it to the number 100000. -/
theorem wirbleExecuteSource_value_wide :
    ∃ enough, ∀ fuel, enough ≤ fuel →
      wirbleExecuteSource (fun _ left right => left == right) bareEquinox fuel
        wirbleInitCompileOptions wirbleWide none = some (.ok (wvmValueFromInt 100000)) := by
  obtain ⟨enough, outcome, runs, value, -⟩ := wirbleExecuteSource_value
    (fun _ left right => left == right) bareEquinox wirbleInitCompileOptions_stock
    (show _ = some MDSTargetKind.x86_64 from rfl) wirbleWide none
  exact ⟨enough, fun fuel more => (runs fuel more).trans
    (congrArg some (value 100000 (by decide +kernel)))⟩

end Wirble
