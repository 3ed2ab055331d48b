import Wirble.Frontend.Backend
import Wirble.Mal.Stock
import Wirble.Wvm.Lines

/-! Which programs of integers the back end compiles. -/

namespace Wirble

open WILContext

/-! What is lowered is written, unless it is returned. -/

/-- Registers below a count, with a destination for every instruction but a return. -/
structure Written (count : Nat) (state : MALLowering) : Prop where
  next : state.nextSSAReg ≤ count
  insts : ∀ inst ∈ state.insts, inst.opcode ≠ .ret → inst.dst ≠ malInvalidReg

namespace Written

variable {count : Nat} {state : MALLowering}

/-- An emitted instruction keeps the destinations written. -/
theorem emit (written : Written count state) {opcode : MALOpcode} {type : MALType} {dst : Nat}
    {operands : List MALOperand} (valid : opcode ≠ .ret → dst ≠ malInvalidReg) :
    Written count (state.emit opcode type dst operands) := by
  refine ⟨written.next, fun inst member => ?_⟩
  rcases List.mem_append.mp member with old | new
  · exact written.insts inst old
  · rw [List.mem_singleton.mp new]
    exact valid

/-- A new register keeps the destinations written. -/
theorem newReg (written : Written count state) : Written (count + 1) state.newReg :=
  ⟨(Nat.mod_le _ _).trans (Nat.succ_le_succ written.next), written.insts⟩

/-- Noting a register keeps the destinations written. -/
theorem setReg (written : Written count state) (nodeCount id reg : Nat) :
    Written count (state.setReg nodeCount id reg) := by
  unfold MALLowering.setReg
  split
  · exact ⟨written.next, written.insts⟩
  · exact written

/-- Every round of the loop takes one register at most. -/
theorem round {src : WILGraph} (written : Written count state) (fits : count < malInvalidReg)
    (node : WILNode) : Written (count + 1) (malLowerNode src state node) := by
  have valid : state.nextSSAReg ≠ malInvalidReg :=
    Nat.ne_of_lt (Nat.lt_of_le_of_lt written.next fits)
  have later : Written (count + 1) state := ⟨Nat.le_succ_of_le written.next, written.insts⟩
  -- The cases are those of the loop body.
  unfold malLowerNode
  split
  case h_11 =>
    split
    · have taken := later.setReg src.length node.id state.nextParamReg
      exact ⟨taken.next, taken.insts⟩
    · exact later
  case h_12 =>
    have retype : ∀ {state type}, Written (count + 1) state →
        Written (count + 1) { state with retType := type } :=
      fun written => ⟨written.next, written.insts⟩
    -- A return may take one register, for the copy of a constant.
    unfold malLowerReturn
    cases node.inputs[1]? with
    | none => exact later.emit (absurd rfl)
    | some slot =>
      dsimp only
      split
      · exact retype (later.emit (absurd rfl))
      · -- The copy in front of the return is written.
        exact retype ((written.newReg.emit fun _ => valid).emit (absurd rfl))
  case h_13 => exact (written.newReg.emit fun _ => valid).setReg _ _ _
  all_goals exact later

end Written

/-- Whatever is lowered has a destination, unless it returns. -/
theorem malLowerNodes_written {graph : WILGraph}
    (fewer : (malFindParams graph).length + graph.length < malInvalidReg) :
    ∀ inst ∈ (malLowerNodes graph).insts, inst.opcode ≠ .ret → inst.dst ≠ malInvalidReg := by
  -- Induction on the rounds, from the registers of the parameters.
  have rounds : ∀ (nodes : List WILNode) (state : MALLowering) (count : Nat),
      Written count state → count + nodes.length < malInvalidReg →
      Written (count + nodes.length) (nodes.foldl (malLowerNode graph) state) := by
    intro nodes
    induction nodes with
    | nil => exact fun _ _ written _ => written
    | cons node rest next =>
      intro state count written fits
      rw [List.length_cons] at fits ⊢
      rw [show count + (rest.length + 1) = count + 1 + rest.length by omega] at fits ⊢
      -- The first node takes one register, and the others go on from there.
      exact next _ _ (written.round (by omega) node) fits
  refine (rounds graph (malLowerStart graph) (malFindParams graph).length ⟨?_, ?_⟩ fewer).insts
  · exact Nat.mod_le _ _
  · intro inst member
    cases member

/-- A round emits two instructions at most. -/
theorem length_malLowerNode (src : WILGraph) (state : MALLowering) (node : WILNode) :
    (malLowerNode src state node).insts.length ≤ state.insts.length + 2 := by
  -- Emitting adds one instruction.
  have one : ∀ (state : MALLowering) opcode type dst operands,
      (state.emit opcode type dst operands).insts.length = state.insts.length + 1 :=
    fun _ _ _ _ _ => List.length_append
  unfold malLowerNode
  split
  -- Only a return can emit two, when its value is a constant.
  case h_11 => split <;> simp
  case h_12 =>
    unfold malLowerReturn
    cases node.inputs[1]? with
    | none => simp [one]
    | some slot =>
      dsimp only
      split
      · simp [one]
      · simp [one, MALLowering.newReg]
  case h_13 => simp [malLowerValue, one, MALLowering.newReg]
  all_goals simp

/-- Every node is lowered to two instructions at most. -/
theorem length_malLowerNodes (graph : WILGraph) :
    (malLowerNodes graph).insts.length ≤ 2 * graph.length := by
  have rounds : ∀ (nodes : List WILNode) (state : MALLowering),
      (nodes.foldl (malLowerNode graph) state).insts.length ≤
        state.insts.length + 2 * nodes.length := by
    intro nodes
    -- By induction on the nodes, two instructions for each round.
    induction nodes with
    | nil => exact fun _ => Nat.le_refl _
    | cons node rest next =>
      intro state
      have first := length_malLowerNode graph state node
      have later := next (malLowerNode graph state node)
      rw [List.foldl_cons, List.length_cons]
      omega
  have all := rounds graph (malLowerStart graph)
  rwa [show (malLowerStart graph).insts.length = 0 from rfl, Nat.zero_add] at all

section Accepts

variable {kind : MDSTargetKind} {scratch : BitVec 16} {count : Nat}

/-- A line of one load and one instruction has three words at most. -/
theorem WVMLine.push_short {line : WVMLine} {word : BitVec 64} (short : line.words.length ≤ 1) :
    (line.push word).words.length ≤ 3 := by
  simp only [WVMLine.push, List.length_append, List.length_singleton]
  omega

/-- A small operand is in a register after one instruction at most, without a constant. -/
theorem wvmOperandLine_small {operand : MALOperand}
    (small : (∃ reg, operand.payload = .reg reg ∧ reg.toNat < 65534) ∨
      ∃ value, operand.payload = .immInt value ∧ -2 ^ 31 ≤ value.toInt ∧
        value.toInt ≤ 2 ^ 31 - 1) :
    ∃ line reg, wvmOperandLine scratch count operand = some (line, reg) ∧
      line.words.length ≤ 1 ∧ line.consts = [] := by
  -- A register is where it is, and an immediate that fits is loaded by one word.
  rcases small with ⟨reg, payload, -⟩ | ⟨value, payload, fits⟩
  · exact ⟨.none, wvmReg reg, by rw [wvmOperandLine, payload], Nat.zero_le _, rfl⟩
  · refine ⟨⟨[wvmEncodeOpRImm32 .loadImm scratch (value.setWidth 32)], []⟩, scratch, ?_,
      Nat.le_refl _, rfl⟩
    rw [wvmOperandLine, payload]
    simp only [if_pos fits]

/-- A small instruction that is selected and written has a short line, without constants. -/
theorem wvmInstLine_small {inst : MALInst} {line : TOSInst}
    (built : mdsBuildSelectedInst (mdsCreateSelector (mdsLoadMachine kind)) inst =
      some ⟨line.desc, line.operands⟩) (small : inst.Small)
    (written : inst.opcode ≠ .ret → inst.dst ≠ malInvalidReg) :
    ∃ added, wvmInstLine scratch count line = some added ∧ added.words.length ≤ 3 ∧
      added.consts = [] := by
  obtain ⟨desc, described, operands, output, selected⟩ := mdsBuildSelectedInst_selected built
  have here : line.operands = mdsDestination desc inst ++ inst.operands := operands
  rw [mdsDestination_eq output] at here
  have described : line.desc = some desc := described
  have single : ∀ {source}, inst.operands = [source] → ∃ added reg,
      wvmOperandLine scratch count source = some (added, reg) ∧
        added.words.length ≤ 1 ∧ added.consts = [] := fun inputs =>
    wvmOperandLine_small (small.operands _ (by rw [inputs]; exact List.mem_singleton_self _))
  unfold wvmInstLine
  simp only [described, Option.bind_eq_bind, Option.bind_some]
  -- The cases are those of the selection, which decide the branch of the encoder.
  cases selected with
  | @move source opcode inputs register named =>
    obtain ⟨added, reg, loaded, words, consts⟩ := single inputs
    have valid := written (by rw [opcode]; decide)
    refine ⟨added.push (wvmEncodeOpRr .move (wvmReg (BitVec.ofNat 32 inst.dst)) reg), ?_,
      WVMLine.push_short words, consts⟩
    simp [named, here, opcode, valid, inputs, loaded, malOperandReg]
  -- The immediate may be loaded into its destination at once.
  | @moveImm source opcode inputs immediate other named =>
    obtain ⟨added, reg, loaded, words, consts⟩ := single inputs
    have valid := written (by rw [opcode]; decide)
    by_cases same : reg = wvmReg (BitVec.ofNat 32 inst.dst)
    · refine ⟨added, ?_, by omega, consts⟩
      simp [other, named, here, opcode, valid, inputs, loaded, malOperandReg, same]
    · refine ⟨added.push (wvmEncodeOpRr .move (wvmReg (BitVec.ofNat 32 inst.dst)) reg), ?_,
        WVMLine.push_short words, consts⟩
      simp [other, named, here, opcode, valid, inputs, loaded, malOperandReg, same]
  | @ret source opcode inputs register others named =>
    obtain ⟨added, reg, loaded, words, consts⟩ := single inputs
    refine ⟨added.push (wvmEncodeOpR .return reg), ?_, WVMLine.push_short words, consts⟩
    simp [others, named, here, opcode, inputs, loaded]
  | @unary source opcode inputs register others named =>
    obtain ⟨added, reg, loaded, words, consts⟩ := single inputs
    -- A negation or inversion is no return, so it is written.
    have other : inst.opcode ≠ .ret := by
      rcases opcode with same | same
      · rw [same]
        decide
      · rw [same]
        decide
    have valid := written other
    rcases opcode with same | same
    · refine ⟨added.push (wvmEncodeOpRr .neg (wvmReg (BitVec.ofNat 32 inst.dst)) reg), ?_,
        WVMLine.push_short words, consts⟩
      simp [others, named, here, same, valid, inputs, loaded, malOperandReg]
    · refine ⟨added.push (wvmEncodeOpRr .not (wvmReg (BitVec.ofNat 32 inst.dst)) reg), ?_,
        WVMLine.push_short words, consts⟩
      simp [others, named, here, same, valid, inputs, loaded, malOperandReg]
  | @binary lhs rhs notRet inputs register either others op named meant =>
    have valid := written notRet
    -- Both operands have lines of their own.
    obtain ⟨first, reg, loaded, words, consts⟩ :=
      @wvmOperandLine_small scratch count lhs (small.operands lhs (by simp [inputs]))
    obtain ⟨second, reg', loaded', words', consts'⟩ :=
      @wvmOperandLine_small scratch count rhs (small.operands rhs (by simp [inputs]))
    refine ⟨(first.append second).push
      (wvmEncodeOpRrr op (wvmReg (BitVec.ofNat 32 inst.dst)) reg reg'), ?_, ?_, ?_⟩
    · simp [others, named, here, notRet, valid, inputs, loaded, loaded', malOperandReg, consts]
    · simp only [WVMLine.append, WVMLine.push, List.length_append, List.length_singleton]
      omega
    · show first.consts ++ second.consts = []
      rw [consts, consts', List.append_nil]

/-- Small instructions that are selected and written have short lines, without constants. -/
theorem wvmLinesFrom_small {insts : List MALInst} {lines : List TOSInst}
    (streams : TOSStreams kind insts lines) (small : ∀ inst ∈ insts, inst.Small)
    (written : ∀ inst ∈ insts, inst.opcode ≠ .ret → inst.dst ≠ malInvalidReg) :
    ∃ added, wvmLinesFrom scratch count lines = some added ∧
      added.words.length ≤ 3 * insts.length ∧ added.consts = [] := by
  -- Induction on the stream, where the number of constants stays the same.
  induction streams with
  | nil => exact ⟨.none, rfl, Nat.zero_le _, rfl⟩
  | @cons inst line insts lines built rest ih =>
    rw [List.forall_mem_cons] at small written
    obtain ⟨first, here, words, consts⟩ :=
      -- The first line adds no constants, so the rest counts as before.
      @wvmInstLine_small kind scratch count inst line built small.1 written.1
    obtain ⟨later, others, words', consts'⟩ := ih small.2 written.2
    refine ⟨first.append later, ?_, ?_, ?_⟩
    · rw [wvmLinesFrom, here, Option.bind_eq_bind, Option.bind_some, consts, List.length_nil,
        Nat.add_zero, others]
      rfl
    · simp only [WVMLine.append, List.length_append, List.length_cons]
      omega
    · show first.consts ++ later.consts = []
      rw [consts, consts', List.append_nil]

variable {fn : MALFunction} {block : MALBlock} {triple : Option String}

/-- A function of one block is lowered exactly if every instruction is selected. -/
theorem mdsLowerFromMAL_accepts (single : fn.blocks = [block]) :
    (∃ program, mdsLowerFromMAL ⟨[fn], triple⟩ (some (mdsCreateSelector (mdsLoadMachine kind)))
      (mdsLoadMachine kind) = some program) ↔ ∀ inst ∈ fn.insts, inst.isSelectable = true := by
  have insts : fn.insts = block.insts := by
    rw [MALFunction.insts, single, List.flatMap_singleton]
  constructor
  · rintro ⟨program, lowered⟩ inst member
    -- An instruction of the program was selected for each one of the block.
    have selected := mdsLowerFromMAL_selected lowered
    rw [List.flatMap_singleton, Option.getD_some] at selected
    obtain ⟨out, -, built⟩ := Search.forall₂_mem_left selected member
    exact (mdsBuildSelectedInst_isSome_iff kind inst).mp (Option.isSome_iff_exists.mpr ⟨out, built⟩)
  · intro each
    -- Each instruction is selected on its own, and the program consists of the results.
    obtain ⟨outs, built⟩ := Dag.exists_mapM_eq_some fun inst member =>
      Option.isSome_iff_exists.mp ((mdsBuildSelectedInst_isSome_iff kind inst).mpr
        (each inst (insts ▸ member)))
    refine ⟨⟨some (mdsLoadMachine kind), [⟨block.id, outs, block.succs⟩]⟩, ?_⟩
    rw [mdsLowerFromMAL, List.flatMap_singleton, single, Option.getD_some]
    simp [mdsLowerBlock, built]

/-- The front end compiles a function of one block, of small instructions that are written, exactly
if every one is selected. Nothing but the selection refuses it. -/
theorem wirbleEmit_accepts (options : WirbleCompileOptions) (single : fn.blocks = [block])
    (small : ∀ inst ∈ fn.insts, inst.Small)
    (written : ∀ inst ∈ fn.insts, inst.opcode ≠ .ret → inst.dst ≠ malInvalidReg)
    (few : 3 * fn.insts.length ≤ wvmBuilderCapacity) (sourceName : CString) :
    (wirbleEmit options kind ⟨[fn], triple⟩ sourceName).map (fun _ => ()) =
      if fn.insts.all (·.isSelectable) then .ok () else .error "unable to lower MAL to MDS" := by
  have machine : mdsValidateMachine (mdsLoadMachine kind) = true := by cases kind <;> rfl
  rw [wirbleEmit]
  simp only [machine, Bool.not_true, Bool.false_eq_true, if_false]
  cases lowered : mdsLowerFromMAL ⟨[fn], triple⟩ (some (mdsCreateSelector (mdsLoadMachine kind)))
    (mdsLoadMachine kind) with
  -- Without a program some instruction is not selectable.
  | none =>
    have refused : ¬ fn.insts.all (·.isSelectable) = true := by
      intro each
      obtain ⟨program, present⟩ :=
        (@mdsLowerFromMAL_accepts kind fn block triple single).mpr (List.all_eq_true.mp each)
      rw [lowered] at present
      cases present
    rw [if_neg refused]
    rfl
  | some program =>
    have accepted : fn.insts.all (·.isSelectable) = true := List.all_eq_true.mpr
      ((@mdsLowerFromMAL_accepts kind fn block triple single).mp ⟨program, lowered⟩)
    -- With a program the stream is finalized, and short enough to be encoded.
    have described := mdsLowerFromMAL_described lowered
    obtain ⟨finalized, valid, -⟩ := tosFinalizeProgram_succeeds described
    have stock : StockSelector (mdsLoadMachine kind)
        (some (mdsCreateSelector (mdsLoadMachine kind))) := Option.getD_some
    have streams := tosStreams_finalize single ((stock.lower _).symm.trans lowered)
    rw [finalized] at streams
    obtain ⟨lines, made, words, consts⟩ := wvmLinesFrom_small streams small written
    have encodable : (tosBuildFromMDS program.laidOut).finalized.Encodable :=
      ⟨lines, made, Nat.le_trans words few, by rw [consts]; exact Nat.zero_le _⟩
    obtain ⟨proto, encoded⟩ := (@wvmPrototypeFromTOS_some_iff _
      (some (cString ("main".toUTF8.data.toList.map (·.toBitVec)))) (some sourceName)).mpr encodable
    -- The encoded registers are those that the verifier counts.
    obtain ⟨count, code, compiled⟩ := wvmPrototypeFromTOS_compiled streams encoded
    obtain ⟨fits, last⟩ := wvmComputeRegCount_fits streams small compiled.written
    rw [← count] at fits last compiled
    have verified := compiled.verified fits last
    simp only [wirbleFinalize_described options described, Except.bind, accepted, if_true]
    rw [wirbleEncode, valid]
    simp only [Bool.not_true, Bool.and_false, Bool.false_eq_true, if_false, encoded, verified]
    rw [if_neg (by rw [Bool.and_eq_true]; exact fun refused => Bool.false_ne_true refused.2)]
    rfl

end Accepts

/-- The verdict of the back end on a graph: the prototype, if there is one, is left out. -/
def wirbleBackendVerdict (fuel : Nat) (options : WirbleCompileOptions) (kind : MDSTargetKind)
    (graph : WILGraph) (sourceName : CString) : Option (Except String Unit) :=
  (wirbleBuildMAL fuel options graph).map fun module =>
    (module.bind fun module => wirbleEmit options kind module sourceName).map fun _ => ()

section Graph

variable {self : Nat} {calls : List WILCall} {options : WirbleCompileOptions}

/-- The module of a graph, once the peephole pass has ended: without the pass at level zero, and
verified before and after it. -/
theorem wirbleBuildMAL_stock (graph : WILGraph)
    (stock : options.mrsRulesPath.getD malPeepholeRules = malPeepholeRules) {fuel : Nat}
    (enough : (malMain graph).insts.length < fuel) :
    wirbleBuildMAL fuel options graph = some (
      if options.verifyIR && !malVerifySSA (malMain graph) then .error "MAL verification failed"
      else .ok ⟨[if 0 < options.optimizationLevel then malStockFunction (malMain graph)
        else malMain graph], some (wirbleTargetOrDefault options)⟩) := by
  obtain ⟨changed, refines, runs⟩ := malApplyPeepholeToFixpoint_stock (malMain graph)
  rw [wirbleBuildMAL, malLowerFromWIL_main, stock]
  simp only [List.all_cons, List.all_nil, Bool.and_true, Option.getD_some]
  split
  · rfl
  · rename_i accepted
    split
    · -- The pass keeps what has been verified.
      have still : ¬ (options.verifyIR && !malVerifySSA (malStockFunction (malMain graph))) =
          true := by
        intro refused
        obtain ⟨verify, wrong⟩ := Bool.and_eq_true_iff.mp refused
        rw [verify, Bool.true_and, Bool.not_eq_true', Bool.not_eq_false] at accepted
        rw [refines.verifySSA accepted] at wrong
        cases wrong
      simp only [wirblePeephole, runs fuel enough, if_neg still]
      rfl
    · rfl

/-- Whether the back end compiles a graph of integers depends on the level, but not on the target.
It is refused by the verifier, or because an instruction is not selected. Every instruction that is
selected without the peephole pass is selected with it, and some others are as well. -/
theorem wirbleBackend_accepts_iff (graph : WVMGraph (runCalls (empty self) calls))
    (stock : options.mrsRulesPath.getD malPeepholeRules = malPeepholeRules) :
    (∃ enough, ∀ fuel, enough ≤ fuel → ∀ kind sourceName,
      wirbleBackendVerdict fuel options kind (runCalls (empty self) calls).graph sourceName = some (
        if options.verifyIR && !malVerifySSA (malMain (runCalls (empty self) calls).graph) then
          .error "MAL verification failed"
        else if (malLowerNodes (runCalls (empty self) calls).graph).insts.all fun inst =>
            (if 0 < options.optimizationLevel then malStockInst inst else inst).isSelectable then
          .ok ()
        else .error "unable to lower MAL to MDS")) ∧
      ∀ inst ∈ (malLowerNodes (runCalls (empty self) calls).graph).insts,
        inst.isSelectable = true → (malStockInst inst).isSelectable = true := by
  have categories := (categories_empty self).calls calls
  refine ⟨⟨(malMain (runCalls (empty self) calls).graph).insts.length + 1, ?_⟩,
    fun inst _ => malStockInst_selectable⟩
  intro fuel enough kind sourceName
  have fewer := graph.fewer
  have small := graph.small categories
  have written := malLowerNodes_written (Nat.lt_trans fewer (by decide))
  have few := length_malLowerNodes (runCalls (empty self) calls).graph
  have capacity : wvmBuilderCapacity = 2 ^ 31 := rfl
  rw [← malMain_insts] at small written few
  rw [wirbleBackendVerdict, wirbleBuildMAL_stock _ stock enough, Option.map_some, ← malMain_insts]
  generalize runCalls (empty self) calls = ctx at *
  -- The verifier refuses the function before any target is looked at.
  by_cases refused : (options.verifyIR && !malVerifySSA (malMain ctx.graph)) = true
  · rw [if_pos refused, if_pos refused]
    rfl
  · rw [if_neg refused, if_neg refused]
    by_cases level : 0 < options.optimizationLevel
    · simp only [if_pos level, Except.bind]
      -- The rewritten instructions are as small, and still written.
      obtain ⟨changed, -, runs⟩ := malApplyPeepholeToFixpoint_stock (malMain ctx.graph)
      have refines := (malApplyPeepholeToFixpoint_values (runs fuel enough)).insts
      have count : (malStockFunction (malMain ctx.graph)).insts.length =
          (malMain ctx.graph).insts.length := refines.length_eq.symm
      have small' : ∀ inst ∈ (malStockFunction (malMain ctx.graph)).insts, inst.Small := by
        intro inst' member
        obtain ⟨inst, source, related⟩ := Search.forall₂_mem_right refines member
        exact related.small (small inst source)
      have written' : ∀ inst ∈ (malStockFunction (malMain ctx.graph)).insts,
          inst.opcode ≠ .ret → inst.dst ≠ malInvalidReg := by
        intro inst' member other
        obtain ⟨inst, source, related⟩ := Search.forall₂_mem_right refines member
        rw [related.dst]
        exact written inst source fun ret => other (by rw [related.same ret, ret])
      have emitted := @wirbleEmit_accepts kind (malStockFunction (malMain ctx.graph)) _
        (some (wirbleTargetOrDefault options)) options rfl small' written' (by omega) sourceName
      rw [emitted, malStockFunction_insts, List.all_map]
      rfl
    -- At level zero the instructions are those of the lowered function.
    · simp only [if_neg level, Except.bind]
      have emitted := @wirbleEmit_accepts kind (malMain ctx.graph) _
        (some (wirbleTargetOrDefault options)) options rfl small written (by omega) sourceName
      rw [emitted]

end Graph

/-- Zero plus a parameter: the machines add nothing to an immediate. -/
def zeroPlusParam : List WILCall :=
  [.makeStart, .makeParam 0 .i32 none, .makeConstInt 0 .i32, .makeBinary .add (some 2) (some 1),
    .makeReturn (some 0) (some 3)]

/-- The graph of the sum with zero is one for the virtual machine. -/
theorem zeroPlusParam_graph : WVMGraph (runCalls (empty 7) zeroPlusParam) where
  integers := integerGraph_of_checks 4 (by decide) (by decide) (by decide)
  ordered := by decide
  fewer := by decide
  -- The bounds are checked node by node.
  constants ref node found kind := by
    have small : ∀ node ∈ (runCalls (empty 7) zeroPlusParam).graph, node.kind = .constInt →
        -2 ^ 31 ≤ node.constInt ∧ node.constInt ≤ 2 ^ 31 - 1 := by decide
    exact small node (List.mem_of_getElem? found) kind
  data ref node found other := by
    have plain : ∀ node ∈ (runCalls (empty 7) zeroPlusParam).graph, node.kind ≠ .returnNode →
        ∀ slot ∈ node.inputs, slot.edgeKind ≠ .control := by decide
    exact plain node (List.mem_of_getElem? found) other

/-- The sum is refused at level zero, and compiled with the peephole pass. -/
theorem wirbleBackend_accepts_sum :
    ∃ fuel, wirbleBackendVerdict fuel { wirbleInitCompileOptions with optimizationLevel := 0 }
        .x86_64 (runCalls (empty 7) zeroPlusParam).graph (cString []) =
          some (.error "unable to lower MAL to MDS") ∧
      wirbleBackendVerdict fuel { wirbleInitCompileOptions with optimizationLevel := 1 }
        .x86_64 (runCalls (empty 7) zeroPlusParam).graph (cString []) = some (.ok ()) := by
  -- The verdict is computed at both levels with the fuel that is enough for both.
  obtain ⟨⟨enough, without⟩, -⟩ := @wirbleBackend_accepts_iff 7 zeroPlusParam
    { wirbleInitCompileOptions with optimizationLevel := 0 } zeroPlusParam_graph rfl
  obtain ⟨⟨enough', within⟩, -⟩ := @wirbleBackend_accepts_iff 7 zeroPlusParam
    { wirbleInitCompileOptions with optimizationLevel := 1 } zeroPlusParam_graph rfl
  refine ⟨max enough enough', ?_, ?_⟩
  · rw [without _ (Nat.le_max_left _ _)]
    decide
  · rw [within _ (Nat.le_max_right _ _)]
    decide

end Wirble
