import Wirble.Mal.CreationOrder

/-! Which lowered functions the single-assignment verifier accepts. -/

namespace Wirble

/-! Instructions that number their registers from a start on. -/

/-- Registers are defined one after the other, and reads are below the next definition, or of
register zero. -/
structure Numbered (start next : Nat) (insts : List MALInst) : Prop where
  defs : malDefs insts = List.range' start (next - start)
  above : start ≤ next
  reads : ∀ before inst after, insts = before ++ inst :: after → ∀ reg ∈ inst.reads,
    reg < start + (malDefs before).length ∨ reg = 0

namespace Numbered

variable {start next : Nat} {insts : List MALInst}

/-- No instruction needs no numbers. -/
theorem nil (start : Nat) : Numbered start start [] := by
  refine ⟨?_, Nat.le_refl _, fun before inst after split => ?_⟩
  · rw [Nat.sub_self]
    rfl
  · have length := congrArg List.length split
    simp at length

/-- As many registers are defined as there are numbers from the start to the next one. -/
theorem length_defs (numbered : Numbered start next insts) :
    start + (malDefs insts).length = next := by
  have above := numbered.above
  rw [numbered.defs, List.length_range']
  omega

/-- Positions of a longer list are those of the shorter one and the last. -/
theorem concat_split {before after : List MALInst} {inst last : MALInst}
    (split : insts ++ [last] = before ++ inst :: after) :
    (∃ after', insts = before ++ inst :: after') ∨ before = insts ∧ inst = last := by
  -- The rest is empty, or it has a last instruction.
  rcases List.eq_nil_or_concat after with rfl | ⟨front, final, rfl⟩
  · have parts := List.append_inj' split rfl
    exact .inr ⟨parts.1.symm, (List.cons.inj parts.2).1.symm⟩
  · rw [List.concat_eq_append, ← List.cons_append, ← List.append_assoc] at split
    exact .inl ⟨front, (List.append_inj' split rfl).1⟩

/-- An instruction without a destination leaves the numbers alone. -/
theorem silent (numbered : Numbered start next insts) {inst : MALInst}
    (dst : inst.dst = malInvalidReg) (reads : ∀ reg ∈ inst.reads, reg < next ∨ reg = 0) :
    Numbered start next (insts ++ [inst]) := by
  refine ⟨?_, numbered.above, fun before other after split reg read => ?_⟩
  · rw [malDefs_append, numbered.defs, malDefs_cons, MALInst.defines, if_pos dst]
    exact List.append_nil _
  -- The instruction is an earlier one, or the one that was added.
  · rcases concat_split split with ⟨after', earlier⟩ | ⟨rfl, rfl⟩
    · exact numbered.reads before other after' earlier reg read
    · rw [numbered.length_defs]
      exact reads reg read

/-- An instruction that writes the next register takes its number. -/
theorem defines (numbered : Numbered start next insts) {inst : MALInst} (dst : inst.dst = next)
    (valid : next < malInvalidReg) (reads : ∀ reg ∈ inst.reads, reg < next ∨ reg = 0) :
    Numbered start (next + 1) (insts ++ [inst]) := by
  have above := numbered.above
  -- The register is not the invalid number, so it is a definition.
  have own : inst.defines = some next := by
    rw [MALInst.defines, dst, if_neg (by omega)]
  refine ⟨?_, by omega, fun before other after split reg read => ?_⟩
  · rw [malDefs_append, numbered.defs, malDefs_cons, own,
      show next + 1 - start = next - start + 1 by omega, List.range'_concat]
    simp [malDefs]
    omega
  -- What the last instruction reads was defined before it.
  · rcases concat_split split with ⟨after', earlier⟩ | ⟨rfl, rfl⟩
    · exact numbered.reads before other after' earlier reg read
    · rw [numbered.length_defs]
      exact reads reg read

/-- What is defined before an instruction, and from it on, are consecutive numbers. -/
theorem split_defs (numbered : Numbered start next insts) {before after : List MALInst}
    {inst : MALInst} (split : insts = before ++ inst :: after) :
    malDefs before = List.range' start (malDefs before).length ∧
      malDefs (inst :: after) = List.range' (start + (malDefs before).length)
        (malDefs (inst :: after)).length := by
  have whole := numbered.defs
  rw [split, malDefs_append] at whole
  -- The numbers before the place are as many as the definitions there.
  have count := congrArg List.length whole
  rw [List.length_append, List.length_range'] at count
  rw [← count, ← List.range'_append_1] at whole
  exact List.append_inj whole (by rw [List.length_range'])

/-- The verifier marks what is below the next definition. -/
theorem mem_marked (numbered : Numbered start next insts) {before after : List MALInst}
    {inst : MALInst} (split : insts = before ++ inst :: after) (reg : Nat) :
    reg ∈ List.range (min start next) ++ malDefs before ↔
      reg < start + (malDefs before).length := by
  have above := numbered.above
  rw [List.mem_append, List.mem_range, (numbered.split_defs split).1, List.mem_range'_1,
    List.length_range']
  omega

/-- The verifier accepts numbered instructions exactly if nothing reads register zero while no
register is defined. -/
theorem verified_iff (numbered : Numbered start next insts) :
    (insts.foldlM (malVerifyInst next) (List.range (min start next))).isSome = true ↔
      0 < start ∨ ∀ before inst after, insts = before ++ inst :: after → malDefs before = [] →
        inst.reads = [] := by
  have above := numbered.above
  rw [malVerifyInst_foldlM]
  constructor
  · intro passes
    -- Registers are read below those that are defined.
    by_cases positive : 0 < start
    · exact .inl positive
    · refine .inr fun before inst after split none => ?_
      refine List.eq_nil_iff_forall_not_mem.mpr fun reg read => ?_
      have marked := ((passes before inst after split).1 reg read).2
      rw [numbered.mem_marked split, none, List.length_nil] at marked
      omega
  -- What an instruction defines is the register behind those before it.
  · intro either before inst after split
    have total := numbered.length_defs
    have parts := congrArg (fun list => (malDefs list).length) split
    simp only [malDefs_append, malDefs_cons, List.length_append] at parts
    refine ⟨fun reg read => ?_, fun reg own => ?_⟩
    · -- A read is below the next definition, as zero is where there is any register.
      have below : reg < start + (malDefs before).length := by
        rcases numbered.reads before inst after split reg read with below | rfl
        · exact below
        · rcases either with positive | clear
          · omega
          · cases defined : malDefs before with
            | nil =>
              rw [clear before inst after split defined] at read
              cases read
            | cons first rest =>
              rw [List.length_cons]
              omega
      exact ⟨by omega, (numbered.mem_marked split reg).mpr below⟩
    · -- The destination is the next definition.
      have rest := (numbered.split_defs split).2
      rw [malDefs_cons, own] at rest
      rw [own] at parts
      obtain rfl : reg = start + (malDefs before).length := (List.cons.inj rest).1
      simp only [Option.toList_some, List.length_cons, List.length_nil] at parts
      refine ⟨by omega, fun marked => ?_⟩
      have below := (numbered.mem_marked split _).mp marked
      omega

end Numbered

/-! Lowering numbers its registers from the parameters on. -/

section Rounds

variable {src : WILGraph}

/-- Where the loop over the nodes stands in front of the remaining ones. -/
structure NumberedAt (src : WILGraph) (rest : List WILNode) (state : MALLowering) : Prop where
  insts : Numbered (malFindParams src).length state.nextSSAReg state.insts
  regs : ∀ reg ∈ state.nodeRegs, reg < state.nextSSAReg ∨ reg = 0
  params : state.nextParamReg + (malFindParams rest).length ≤ (malFindParams src).length
  fewer : state.nextSSAReg + (rest.filter (·.kind != .param)).length < malInvalidReg

/-- An operand reads a register of the table, or none. -/
theorem malOperandFromWILInput_reads {regs : List Nat} {next : Nat}
    (table : ∀ reg ∈ regs, reg < next ∨ reg = 0) (input : Option Nat) {reg : Nat}
    (read : (malOperandFromWILInput src regs input).reg? = some reg) : reg < next ∨ reg = 0 := by
  rw [malOperandFromWILInput] at read
  split at read
  · cases read
  · split at read
    · split at read
      all_goals cases read
    · split at read
      · cases read
      · -- The register number is cut to 32 bits, which makes it smaller if it changes it.
        rename_i node _ _ _
        cases read
        have cut := Nat.mod_le (regs.getD (node.id - 1) 0) (2 ^ 32)
        rw [BitVec.toNat_ofNat]
        rw [List.getD_eq_getElem?_getD] at cut ⊢
        cases entry : regs[node.id - 1]? with
        | none => exact .inr rfl
        | some found =>
          rw [entry, Option.getD_some] at cut
          rw [Option.getD_some]
          rcases table found (List.mem_of_getElem? entry) with below | rfl
          · exact .inl (by omega)
          · exact .inr rfl

section State

variable {state : MALLowering} {rest : List WILNode} (numbered : NumberedAt src rest state)

include numbered

/-- Recording a register that is in use keeps the numbers. -/
theorem NumberedAt.setReg (nodeCount id : Nat) {reg : Nat} (below : reg < state.nextSSAReg) :
    NumberedAt src rest (state.setReg nodeCount id reg) := by
  unfold MALLowering.setReg
  split
  · refine ⟨numbered.insts, fun other member => ?_, numbered.params, numbered.fewer⟩
    rcases List.mem_or_eq_of_mem_set member with old | rfl
    · exact numbered.regs other old
    · exact .inl below
  · exact numbered

/-- An instruction without a destination takes no number. -/
theorem NumberedAt.emit (opcode : MALOpcode) (type : MALType) (operands : List MALOperand)
    (reads : ∀ operand ∈ operands, ∀ reg, operand.reg? = some reg →
      reg < state.nextSSAReg ∨ reg = 0) :
    NumberedAt src rest (state.emit opcode type malInvalidReg operands) := by
  refine ⟨numbered.insts.silent rfl fun reg read => ?_, numbered.regs, numbered.params,
    numbered.fewer⟩
  obtain ⟨operand, member, same⟩ := List.mem_filterMap.mp read
  exact reads operand member reg same

/-- An instruction that writes a new register takes the next number. -/
theorem NumberedAt.emitNew (opcode : MALOpcode) (type : MALType) (operands : List MALOperand)
    (reads : ∀ operand ∈ operands, ∀ reg, operand.reg? = some reg →
      reg < state.nextSSAReg ∨ reg = 0)
    (fewer : state.nextSSAReg + 1 + (rest.filter (·.kind != .param)).length < malInvalidReg) :
    NumberedAt src rest (state.newReg.emit opcode type state.nextSSAReg operands) ∧
      (state.newReg.emit opcode type state.nextSSAReg operands).nextSSAReg =
        state.nextSSAReg + 1 := by
  have valid : state.nextSSAReg < malInvalidReg := by omega
  -- The counter does not wrap yet.
  have next : (state.nextSSAReg + 1) % 2 ^ 32 = state.nextSSAReg + 1 := by
    unfold malInvalidReg at fewer
    exact Nat.mod_eq_of_lt (by omega)
  refine ⟨⟨?_, fun reg member => ?_, numbered.params, ?_⟩, next⟩
  · show Numbered _ ((state.nextSSAReg + 1) % 2 ^ 32) (state.insts ++ [_])
    rw [next]
    refine numbered.insts.defines rfl valid fun reg read => ?_
    -- A register that is read is one of an operand.
    obtain ⟨operand, member, same⟩ := List.mem_filterMap.mp read
    exact reads operand member reg same
  · show reg < (state.nextSSAReg + 1) % 2 ^ 32 ∨ reg = 0
    rw [next]
    exact (numbered.regs reg member).imp_left Nat.lt_succ_of_lt
  · show (state.nextSSAReg + 1) % 2 ^ 32 + _ < malInvalidReg
    rw [next]
    exact fewer

end State

/-- A node that takes no register leaves the rest to the others. -/
theorem NumberedAt.pass {state : MALLowering} {node : WILNode} {rest : List WILNode}
    (numbered : NumberedAt src (node :: rest) state) : NumberedAt src rest state := by
  have params := numbered.params
  have fewer := numbered.fewer
  rw [malFindParams, List.filter_cons] at params
  rw [List.filter_cons] at fewer
  refine ⟨numbered.insts, numbered.regs, Nat.le_trans ?_ params, Nat.lt_of_le_of_lt ?_ fewer⟩
  -- The node is no parameter, or is counted as one.
  · rw [malFindParams]
    split <;> simp
  · split <;> simp

/-- Every round numbers on. -/
theorem NumberedAt.round {state : MALLowering} {node : WILNode} {rest : List WILNode}
    (numbered : NumberedAt src (node :: rest) state) :
    NumberedAt src rest (malLowerNode src state node) := by
  have passed := numbered.pass
  have above := numbered.insts.above
  have fewer := numbered.fewer
  have operand := @malOperandFromWILInput_reads src _ _ numbered.regs
  -- The cases are those of the loop body.
  unfold malLowerNode
  split
  case h_11 param =>
    split
    · -- There are registers for all parameters.
      have params := numbered.params
      rw [malFindParams, List.filter_cons_of_pos (by simp [param]), List.length_cons] at params
      have recorded := passed.setReg src.length node.id
        (show state.nextParamReg < state.nextSSAReg by omega)
      refine ⟨recorded.insts, recorded.regs, ?_, recorded.fewer⟩
      have cut := Nat.mod_le (state.nextParamReg + 1) (2 ^ 32)
      show (state.nextParamReg + 1) % 2 ^ 32 + (rest.filter _).length ≤ _
      omega
    · exact passed
  -- A return reads its operand, or the copy of it.
  case h_12 ret =>
    rw [List.filter_cons_of_pos (by simp [ret]), List.length_cons] at fewer
    have retype : ∀ {state type}, NumberedAt src rest state →
        NumberedAt src rest { state with retType := type } :=
      fun numbered => ⟨numbered.insts, numbered.regs, numbered.params, numbered.fewer⟩
    unfold malLowerReturn
    cases node.inputs[1]? with
    | none => exact passed.emit _ _ _ fun _ member => absurd member List.not_mem_nil
    | some slot =>
      dsimp only
      have reads := fun reg => @operand slot.node reg
      generalize malOperandFromWILInput src state.nodeRegs slot.node = it at reads
      split
      · refine retype (passed.emit _ _ _ ?_)
        rw [List.forall_mem_singleton]
        exact reads
      · -- The copy defines the register that the return reads.
        obtain ⟨copied, next⟩ := passed.emitNew .copy
          (malTypeFromWIL (wilNodeType (wilNodeAt src slot.node))) [it]
          (by rwa [List.forall_mem_singleton]) (by omega)
        refine retype (copied.emit _ _ _ ?_)
        rw [List.forall_mem_singleton, next]
        intro reg read
        cases read
        have cut := Nat.mod_le state.nextSSAReg (2 ^ 32)
        rw [BitVec.toNat_ofNat]
        omega
  -- An operator reads operands, and defines the next register.
  case h_13 other _ =>
    have plain : (node.kind != .param) = true := by simpa using other
    rw [List.filter_cons, if_pos plain, List.length_cons] at fewer
    have reads : ∀ operand ∈ malLowerOperands src state.nodeRegs node, ∀ reg,
        operand.reg? = some reg → reg < state.nextSSAReg ∨ reg = 0 := by
      intro it member reg read
      rw [malLowerOperands] at member
      split at member
      · -- A conversion reads its input, and names a type.
        rcases List.mem_cons.mp member with rfl | named
        · exact operand _ read
        · rw [List.mem_singleton.mp named] at read
          cases read
      · obtain ⟨slot, -, rfl⟩ := List.mem_map.mp member
        exact operand _ read
    obtain ⟨emitted, next⟩ := passed.emitNew (malOpcodeFromWIL node.kind node.type)
      (malTypeFromWIL node.type) _ reads (by omega)
    exact emitted.setReg _ _ (by omega)
  all_goals exact passed

/-- After all rounds the instructions are numbered. -/
theorem NumberedAt.rounds {rest : List WILNode} {state : MALLowering}
    (numbered : NumberedAt src rest state) :
    NumberedAt src [] (rest.foldl (malLowerNode src) state) := by
  induction rest generalizing state with
  | nil => exact numbered
  | cons node rest next => exact next numbered.round

end Rounds

/-- The function that lowering adds to a module. -/
def malMain (graph : WILGraph) : MALFunction where
  name := "wil_main"
  retType := (malLowerNodes graph).retType
  paramTypes := (malFindParamCount graph).2
  paramCount := (malFindParamCount graph).1
  blocks := [⟨0, (malLowerNodes graph).insts, [], []⟩]
  nextSSAReg := (malLowerNodes graph).nextSSAReg

/-- Lowering a graph gives a module of one function. -/
theorem malLowerFromWIL_main (graph : WILGraph) (triple : Option String) :
    malLowerFromWIL graph (malModuleCreate triple) =
      ⟨[malMain graph], some (triple.getD "unknown")⟩ := rfl

/-- The instructions of the function are those of the lowered nodes. -/
theorem malMain_insts (graph : WILGraph) : (malMain graph).insts = (malLowerNodes graph).insts :=
  List.append_nil _

/-- Parameters and other nodes are all nodes. -/
theorem params_add_others (nodes : List WILNode) :
    (malFindParams nodes).length + (nodes.filter (·.kind != .param)).length = nodes.length := by
  rw [malFindParams, ← List.countP_eq_length_filter, ← List.countP_eq_length_filter,
    List.length_eq_countP_add_countP (·.kind == .param)]
  congr 1
  refine List.countP_congr fun node _ => ?_
  simp

/-- The verifier accepts a lowered function exactly if the graph has a parameter, or nothing up to
the first definition reads a register. So a graph with a parameter is accepted in any order. -/
theorem malLowerFromWIL_verified_iff (src : WILGraph) (fewer : src.length < 2 ^ 32 - 1)
    (triple : Option String) :
    (∀ fn ∈ (malLowerFromWIL src (malModuleCreate triple)).functions, malVerifySSA fn = true) ↔
      (∃ node ∈ src, node.kind = .param) ∨
        ∀ before inst after, (malLowerNodes src).insts = before ++ inst :: after →
          malDefs before = [] → inst.reads = [] := by
  have total := params_add_others src
  have start : (malFindParamCount src).1 = (malFindParams src).length :=
    Nat.mod_eq_of_lt (by omega)
  -- Before the first node there are no instructions and no registers but those of the parameters.
  have first : NumberedAt src src (malLowerStart src) := by
    refine ⟨?_, fun reg member => .inr (List.mem_replicate.mp member).2, ?_, ?_⟩
    · show Numbered _ (malFindParamCount src).1 []
      rw [start]
      exact .nil _
    · exact Nat.le_of_eq (Nat.zero_add _)
    · show (malFindParamCount src).1 + _ < malInvalidReg
      rw [start, total]
      exact fewer
  have last := first.rounds
  have verified := last.insts.verified_iff
  -- Parameters are counted by their nodes.
  have some : 0 < (malFindParams src).length ↔ ∃ node ∈ src, node.kind = .param := by
    rw [malFindParams, List.length_pos_iff_exists_mem]
    simp
  rw [malLowerFromWIL_main, List.forall_mem_singleton, malVerifySSA, malMain_insts, ← some,
    show (malMain src).paramCount = (malFindParams src).length from start]
  exact verified

/-- The product is created behind the return that reads it, and the verifier does not see it. -/
theorem malLowerFromWIL_verified_forwards :
    (malLowerFromWIL (runCalls (WILContext.empty 7) rewrittenSum).graph
      (malModuleCreate none)).functions.all malVerifySSA = true := by
  refine List.all_eq_true.mpr
    ((malLowerFromWIL_verified_iff _ (by decide) none).mpr (.inl ?_))
  have param : ∃ node ∈ (runCalls (WILContext.empty 7) rewrittenSum).graph,
      node.kind = .param := by decide
  exact param

end Wirble
