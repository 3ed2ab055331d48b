import Wirble.Tos.Layout
import Wirble.Wvm.Emitted
import Wirble.Wvm.Verified
import Mathlib.Data.List.Forall2

/-! Prototypes of lowered functions, and how their instructions are executed one by one. -/

namespace Wirble

section Stream

variable {kind : MDSTargetKind}

/-- A stream holds the selected instructions of the source in order. -/
def TOSStreams (kind : MDSTargetKind) (insts : List MALInst) (lines : List TOSInst) : Prop :=
  List.Forall₂ (fun inst (line : TOSInst) =>
    mdsBuildSelectedInst (mdsCreateSelector (mdsLoadMachine kind)) inst =
      some ⟨line.desc, line.operands⟩) insts lines

/-- A selector that is not given, or has the patterns that it is created with. -/
def StockSelector (machine : MDSMachine) (selector : Option MDSInstrSelector) : Prop :=
  selector.getD (mdsCreateSelector machine) = mdsCreateSelector machine

/-- Lowering with such a selector is lowering without one. -/
theorem StockSelector.lower {machine : MDSMachine} {selector : Option MDSInstrSelector}
    (stock : StockSelector machine selector) (module : MALModule) :
    mdsLowerFromMAL module selector machine = mdsLowerFromMAL module none machine := by
  rw [mdsLowerFromMAL, mdsLowerFromMAL, stock, Option.getD_none]

/-- Building a stream keeps the instructions of a lowered program. -/
theorem tosStreams_of_insts {insts : List MALInst} {outs : List MDSInst} {lines : List TOSInst}
    (selected : List.Forall₂ (fun inst out =>
      mdsBuildSelectedInst (mdsCreateSelector (mdsLoadMachine kind)) inst = some out) insts outs)
    (same : lines.map (fun line => MDSInst.mk line.desc line.operands) = outs) :
    TOSStreams kind insts lines := by
  rw [← same, List.forall₂_map_right_iff] at selected
  exact selected

/-- A program lowered from a module streams its instructions function by function. -/
theorem tosStreams_build {module : MALModule} {program : MDSProgram}
    (lowered : mdsLowerFromMAL module none (mdsLoadMachine kind) = some program) :
    TOSStreams kind (module.functions.flatMap (·.insts))
      (tosBuildFromMDS program).instructions := by
  have selected := mdsLowerFromMAL_selected lowered
  rw [Option.getD_none] at selected
  exact tosStreams_of_insts selected (tosBuildFromMDS_instructions program)

/-- Laying out a single block keeps its instructions as well. -/
theorem tosStreams_finalize {fn : MALFunction} {block : MALBlock} {triple : Option String}
    (single : fn.blocks = [block]) {program : MDSProgram}
    (lowered : mdsLowerFromMAL ⟨[fn], triple⟩ none (mdsLoadMachine kind) = some program) :
    TOSStreams kind fn.insts (tosFinalizeProgram (tosBuildFromMDS program)).2.instructions := by
  have selected := mdsLowerFromMAL_selected lowered
  rw [List.flatMap_singleton, Option.getD_none] at selected
  -- There is one order of one block only.
  have one : program.laidOut.blocks = program.blocks := by
    have count := length_mdsLowerFromMAL lowered
    rw [List.flatMap_singleton, single, List.length_singleton] at count
    obtain ⟨only, same⟩ := List.length_eq_one_iff.mp count
    have permuted := program.laidOut_perm
    rw [same] at permuted ⊢
    exact List.perm_singleton.mp permuted
  rw [tosFinalizeProgram_build]
  refine tosStreams_of_insts selected ((tosBuildFromMDS_instructions program.laidOut).trans ?_)
  rw [MDSProgram.insts, MDSProgram.insts, one]

/-- The bytecode of a stream is that of its instructions, one after the other. -/
theorem wvmEmit_lines {insts : List MALInst} {lines : List TOSInst}
    (stream : TOSStreams kind insts lines) {builder builder' : WVMEncodeBuilder}
    (emitted : lines.foldlM wvmEmitFromMnemonic builder = some builder') :
    (∀ inst ∈ insts, inst.opcode ≠ .ret → inst.dst ≠ malInvalidReg) ∧
      ∃ code, List.Forall₂ (WVMEmits builder.scratchReg) insts code ∧
        Appends builder code.flatten builder' := by
  -- Induction on the stream, where the scratch register stays the same.
  induction stream generalizing builder with
  | nil =>
    obtain rfl := Option.some.inj emitted
    exact ⟨nofun, [], .nil, .refl builder⟩
  | @cons inst line insts lines built rest ih =>
    rw [List.foldlM_cons, Option.bind_eq_bind, Option.bind_eq_some_iff] at emitted
    obtain ⟨middle, first, later⟩ := emitted
    obtain ⟨written, words, emits, appends⟩ := wvmEmitFromMnemonic_built built first
    obtain ⟨others, code, each, appended⟩ := ih later
    rw [appends.scratchReg] at each
    exact ⟨List.forall_mem_cons.mpr ⟨written, others⟩, words :: code, .cons emits each,
      appends.trans appended⟩

end Stream

/-- A prototype of straight-line instructions: each has its own part of the code. -/
structure WVMCompiled (insts : List MALInst) (scratch : BitVec 16)
    (code : List (List (BitVec 64))) (proto : WVMPrototype) : Prop where
  written : ∀ inst ∈ insts, inst.opcode ≠ .ret → inst.dst ≠ malInvalidReg
  emits : List.Forall₂ (WVMEmits scratch) insts code
  instrs : insts ≠ [] → proto.instrs.getD [] = code.flatten
  empty : insts = [] → proto.instrs.getD [] = [WVMOpcode.halt.code]
  present : proto.instrs ≠ none
  count : proto.instrCount.toNat = (proto.instrs.getD []).length

/-- No instruction is emitted as nothing. -/
theorem WVMEmits.ne_nil {scratch : BitVec 16} {inst : MALInst} {words : List (BitVec 64)}
    (emits : WVMEmits scratch inst words) : words ≠ [] := by
  cases emits <;> simp

/-- What encoding a stream gives, if it gives a prototype. -/
theorem wvmPrototypeFromTOS_compiled {kind : MDSTargetKind} {insts : List MALInst}
    {program : TOSProgram} (stream : TOSStreams kind insts program.instructions)
    {name source : Option CString} {proto : WVMPrototype}
    (encoded : wvmPrototypeFromTOS program name source = some proto) :
    proto.regCount = wvmComputeRegCount program ∧
      ∃ code, WVMCompiled insts (wvmComputeRegCount program - 1) code proto := by
  unfold wvmPrototypeFromTOS at encoded
  rw [Option.bind_eq_bind, Option.bind_eq_some_iff] at encoded
  obtain ⟨builder, emitted, rest⟩ := encoded
  obtain ⟨written, code, emits, appends⟩ := wvmEmit_lines stream emitted
  have empty : (wvmBuilderStart program).instrs.length ≤ wvmBuilderCapacity := Nat.zero_le _
  -- Only an empty stream gets a halt.
  have finished : ∃ final, Appends builder
      (if builder.instrs.length = 0 then [WVMOpcode.halt.code] else []) final ∧
        proto.instrs = some final.instrs ∧ proto.regCount = final.regCount ∧
          proto.instrCount = BitVec.ofNat 32 final.instrs.length := by
    split at rest
    · rename_i none
      rw [Option.bind_eq_some_iff] at rest
      obtain ⟨final, appended, made⟩ := rest
      obtain rfl := Option.some.inj made
      rw [if_pos none]
      exact ⟨final, wvmBuilderAppendInstr_some appended, rfl, rfl, rfl⟩
    · rename_i some
      obtain rfl := Option.some.inj rest
      rw [if_neg some]
      exact ⟨builder, .refl builder, rfl, rfl, rfl⟩
  obtain ⟨final, grown, content, regs, count⟩ := finished
  -- The words in front of the halt are those of the lines.
  have instrs : builder.instrs = code.flatten := appends.instrs
  have whole := appends.trans grown
  refine ⟨regs.trans whole.regCount, code, written, emits, fun full => ?_, fun none => ?_,
    content ▸ Option.some_ne_none _, ?_⟩
  · -- Some instruction has been emitted.
    have filled : builder.instrs.length ≠ 0 := by
      cases emits with
      | nil => exact absurd rfl full
      | cons head tail =>
        have first := List.length_pos_of_ne_nil head.ne_nil
        rw [instrs, List.flatten_cons, List.length_append]
        omega
    rw [if_neg filled] at grown
    rw [content]
    exact grown.instrs.trans ((List.append_nil _).trans instrs)
  -- An empty stream leaves the halt only.
  · subst none
    cases emits
    have start : builder.instrs = [] := instrs
    rw [if_pos (by rw [start]; rfl)] at grown
    rw [content]
    exact grown.instrs.trans (by rw [start]; rfl)
  · -- The array never outgrows its count.
    have room := whole.room empty
    rw [count, content, BitVec.toNat_ofNat, Nat.mod_eq_of_lt]
    · rfl
    · exact Nat.lt_of_le_of_lt room (by decide)

section Execute

variable {proto : WVMPrototype}

/-- The instruction at a place in the middle of the code. -/
theorem instrAt_of_split (count : proto.instrCount.toNat = (proto.instrs.getD []).length)
    {front back : List (BitVec 64)} {word : BitVec 64}
    (split : proto.instrs.getD [] = front ++ word :: back) {pc : BitVec 32}
    (place : pc.toNat = front.length) : pc < proto.instrCount ∧ proto.instrAt pc = word := by
  -- The code has a word at that place, which is the one in the middle.
  constructor
  · rw [BitVec.lt_def, count, split, place, List.length_append, List.length_cons]
    omega
  · rw [WVMPrototype.instrAt, split, place]
    simp

/-- A round that writes one register and goes on with the next instruction. -/
structure WVMRun.Wrote (run : WVMRun) (reg : BitVec 16) (value : BitVec 64) (after : WVMRun) :
    Prop where
  stack : after.vm.stack = Function.update run.vm.stack reg.toNat value
  pc : after.pc.toNat = run.pc.toNat + 1
  result : after.result = none

/-- A round that executes the instruction at the place of a run. -/
theorem wvmStep_at {run : WVMRun} (going : run.result = none) (inside : run.pc < proto.instrCount) :
    ∃ framed : WVMRun, framed.vm.stack = run.vm.stack ∧ framed.pc = run.pc ∧
      framed.result = none ∧
        wvmStep proto run = wvmExecInstr proto (proto.instrAt run.pc) framed := by
  refine ⟨{ run with vm := { run.vm with
    topFrame := some { pc := run.pc } } }, rfl, rfl, going, ?_⟩
  rw [wvmStep, if_neg (by simp [going]), if_pos inside]
  rfl

/-- The next place is inside or just behind the code. -/
theorem pc_next {pc : BitVec 32} (inside : pc < proto.instrCount) :
    (pc + 1).toNat = pc.toNat + 1 := by
  have bound := BitVec.lt_def.mp inside
  have limit := proto.instrCount.isLt
  rw [BitVec.toNat_add]
  exact Nat.mod_eq_of_lt (by simp; omega)

/-- The value that a load of an immediate leaves in the scratch register. -/
def wvmLoadedValue (proto : WVMPrototype) (load : BitVec 64) : BitVec 64 :=
  if wvmDecodeOp load = WVMOpcode.loadImm.ctorIdx then wvmValueFromInt (wvmDecodeImm32 load)
  else (proto.consts.getD []).getD (wvmDecodeConst load).toNat 0

/-- A decoded opcode number names its opcode. -/
theorem wvmOpcodeOf_eq {word : BitVec 64} {op : WVMOpcode} (decoded : wvmDecodeOp word = op.ctorIdx) :
    wvmOpcodeOf word = some op := by
  rw [wvmOpcodeOf, decoded, wvmOpcodes_ctorIdx]

/-- A load of either kind writes its register. -/
theorem wvmStep_loads {op : WVMOpcode} (loads : op = .loadImm ∨ op = .loadConst)
    {scratch : BitVec 16} {field : BitVec 32} {run : WVMRun} (going : run.result = none)
    (inside : run.pc < proto.instrCount)
    (here : proto.instrAt run.pc = wvmEncodeOpRImm32 op scratch field) :
    run.Wrote scratch (wvmLoadedValue proto (wvmEncodeOpRImm32 op scratch field))
      (wvmStep proto run) := by
  obtain ⟨framed, stack, pc, result, step⟩ := wvmStep_at going inside
  have code := wvmDecodeOp_opRImm32 op scratch field
  have ra := wvmDecodeRA_opRImm32 op scratch field
  rw [step, here, wvmExecInstr, wvmOpcodeOf_eq code, wvmLoadedValue, code]
  refine ⟨?_, ?_, ?_⟩
  -- Both loads write their value to the register and go on.
  · rcases loads with rfl | rfl <;>
      simp [wvmExecOp, WVMRun.next, WVMRun.write, WVMRun.record, ra, stack, WVMOpcode.ctorIdx]
  · rcases loads with rfl | rfl <;>
      simp only [wvmExecOp, WVMRun.next, WVMRun.write, WVMRun.record, pc] <;> exact pc_next inside
  · rcases loads with rfl | rfl <;> exact result

/-- A load writes the scratch register. -/
theorem wvmStep_load {scratch : BitVec 16} {payload : MALOperandPayload} {load : BitVec 64}
    (loads : LoadsImm scratch payload load) {run : WVMRun} (going : run.result = none)
    (inside : run.pc < proto.instrCount) (here : proto.instrAt run.pc = load) :
    run.Wrote scratch (wvmLoadedValue proto load) (wvmStep proto run) := by
  cases loads with
  | small value fits => exact wvmStep_loads (.inl rfl) going inside here
  | wide value large index => exact wvmStep_loads (.inr rfl) going inside here
  | float value index => exact wvmStep_loads (.inr rfl) going inside here

/-- A small immediate is loaded as it is. -/
theorem wvmLoadedValue_small (scratch : BitVec 16) (value : BitVec 64) :
    wvmLoadedValue proto (wvmEncodeOpRImm32 .loadImm scratch (value.setWidth 32)) =
      wvmValueFromInt (value.setWidth 32) := by
  rw [wvmLoadedValue, if_pos (wvmDecodeOp_opRImm32 .loadImm scratch _),
    wvmDecodeImm32_opRImm32]

/-- The opcodes of binary operations are in the list of them. -/
theorem wvmBinaryOpcode_mem {opcode : MALOpcode} {op : WVMOpcode}
    (meant : wvmBinaryOpcode opcode = some op) : op ∈ wvmBinaryOpcodes := by
  cases opcode <;> simp_all [wvmBinaryOpcode, wvmBinaryOpcodes]

/-- The last instruction of a line writes the destination, or fails on operands that are not
supported. -/
theorem wvmStep_main {opcode : MALOpcode} {dst : BitVec 16} {sources : List (BitVec 16)}
    {main : BitVec 64} (other : opcode ≠ .ret) (emitted : wvmMain opcode dst sources = some main)
    {run : WVMRun} (going : run.result = none) (inside : run.pc < proto.instrCount)
    (here : proto.instrAt run.pc = main) :
    match wvmOutput opcode (sources.map run.slot) with
    | some value => run.Wrote dst value (wvmStep proto run)
    | none => (wvmStep proto run).result = some false := by
  obtain ⟨framed, stack, pc, result, step⟩ := wvmStep_at going inside
  rw [here] at step
  have slots : framed.slot = run.slot := by
    funext reg
    rw [WVMRun.slot, WVMRun.slot, stack]
  rw [step]
  rcases wvmMain_cases emitted with ⟨source, returns, -, -⟩ | ⟨source, op, rfl, rfl, kind⟩ |
    ⟨lhs, rhs, op, rfl, meant, rfl⟩
  · exact absurd returns other
  · -- A move, a negation or a complement.
    have unary : ∀ {value : BitVec 64}, wvmExecOp proto (wvmEncodeOpRr op dst source) framed op =
        ((framed.read (wvmDecodeRB (wvmEncodeOpRr op dst source))).write
          (wvmDecodeRA (wvmEncodeOpRr op dst source)) value).next →
        run.Wrote dst value (wvmExecInstr proto (wvmEncodeOpRr op dst source) framed) := by
      intro value exec
      rw [wvmExecInstr, wvmOpcodeOf_eq (wvmDecodeOp_opRr op dst source)]
      rw [wvmDecodeRA_opRr, wvmDecodeRB_opRr] at exec
      show run.Wrote dst value (wvmExecOp proto _ framed op)
      rw [exec]
      refine ⟨?_, ?_, result⟩
      · simp only [WVMRun.next, WVMRun.write, WVMRun.read, WVMRun.record, stack]
      · simp only [WVMRun.next, WVMRun.write, WVMRun.read, WVMRun.record, pc]
        exact pc_next inside
    -- Only the slot of the source is read.
    have source_eq : framed.slot (wvmDecodeRB (wvmEncodeOpRr op dst source)) = run.slot source := by
      rw [wvmDecodeRB_opRr, slots]
    rcases kind with ⟨rfl, rfl⟩ | ⟨rfl, rfl⟩ | ⟨rfl, rfl⟩
    · exact unary (by rw [← source_eq]; rfl)
    · exact unary (by rw [← source_eq]; rfl)
    · exact unary (by rw [← source_eq]; rfl)
  -- A binary operation reads two slots, and fails where they are not supported.
  · have output : wvmOutput opcode ([lhs, rhs].map run.slot) =
        wvmExecBinaryInt op (run.slot lhs) (run.slot rhs) := by
      show (wvmBinaryOpcode opcode).bind _ = _
      rw [meant]
      rfl
    have exec : wvmExecInstr proto (wvmEncodeOpRrr op dst lhs rhs) framed =
        wvmExecOp proto (wvmEncodeOpRrr op dst lhs rhs) framed op := by
      rw [wvmExecInstr, wvmOpcodeOf_eq (wvmDecodeOp_opRrr op dst lhs rhs)]
    rw [output, exec, wvmExecOp_binary (wvmBinaryOpcode_mem meant), wvmDecodeRA_opRrr,
      wvmDecodeRB_opRrr, wvmDecodeRC_opRrr, slots]
    cases wvmExecBinaryInt op (run.slot lhs) (run.slot rhs) with
    | none => rfl
    | some value =>
      refine ⟨?_, ?_, result⟩
      · simp only [WVMRun.next, WVMRun.write, WVMRun.read, WVMRun.record, stack]
      · simp only [WVMRun.next, WVMRun.write, WVMRun.read, WVMRun.record, pc]
        exact pc_next inside

/-- A return has one source. -/
theorem wvmMain_ret {dst : BitVec 16} {sources : List (BitVec 16)} {main : BitVec 64}
    (emitted : wvmMain .ret dst sources = some main) : ∃ source, sources = [source] := by
  -- Only a return is emitted for a return, with its source.
  rcases wvmMain_cases emitted with ⟨source, -, single, -⟩ | ⟨source, -, single, -⟩ |
    ⟨_, _, _, -, meant, -⟩
  · exact ⟨source, single⟩
  · exact ⟨source, single⟩
  · cases meant

/-- A return leaves its register in the first one. -/
theorem wvmStep_return {dst source : BitVec 16} {main : BitVec 64}
    (emitted : wvmMain .ret dst [source] = some main) {run : WVMRun} (going : run.result = none)
    (inside : run.pc < proto.instrCount) (here : proto.instrAt run.pc = main) :
    (wvmStep proto run).result = some true ∧
      (wvmStep proto run).vm.stack = Function.update run.vm.stack 0 (run.slot source) := by
  -- The return copies its register to the first one, where the host looks.
  obtain ⟨framed, stack, pc, result, step⟩ := wvmStep_at going inside
  obtain rfl := Option.some.inj emitted
  rw [step, here, wvmExecInstr, wvmOpcodeOf_eq (wvmDecodeOp_opR .return source)]
  refine ⟨rfl, ?_⟩
  show Function.update framed.vm.stack 0 (framed.slot (wvmDecodeRA (wvmEncodeOpR .return source))) = _
  rw [wvmDecodeRA_opR, WVMRun.slot, stack]
  rfl

end Execute

end Wirble
