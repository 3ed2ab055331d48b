import Wirble.Wvm.Compiled

/-! Executions of compiled functions do not depend on what earlier executions left behind. -/

namespace Wirble

/-- Two runs have come to the same verdict, and to the same first register if they succeeded. -/
def EndedAlike (run run' : WVMRun) : Prop :=
  ∃ verdict, run.result = some verdict ∧ run'.result = some verdict ∧
    (verdict = true → run.vm.stack 0 = run'.vm.stack 0)

/-- Two executions of a prototype end alike. -/
def SameOutcome (proto : WVMPrototype) (vm vm' : WVMState) : Prop :=
  ∃ rounds, EndedAlike (wvmExecute vm proto rounds) (wvmExecute vm' proto rounds)

/-- A run that has a result stays as it is. -/
theorem wvmExecute_more {vm : WVMState} {proto : WVMPrototype} {rounds more : Nat}
    (enough : rounds ≤ more) (ended : (wvmExecute vm proto rounds).result.isSome = true) :
    wvmExecute vm proto more = wvmExecute vm proto rounds := by
  induction more, enough using Nat.le_induction with
  | base => rfl
  | succ more _ next => rw [wvmExecute, next, wvmStep, if_pos ended]

/-- Two runs are at the same place and agree on some slots. -/
structure Together (slots : Set Nat) (place : Nat) (run run' : WVMRun) : Prop where
  going : run.result = none ∧ run'.result = none
  pc : run.pc.toNat = place ∧ run'.pc.toNat = place
  agree : ∀ slot ∈ slots, run.vm.stack slot = run'.vm.stack slot

section Lines

variable {proto : WVMPrototype} {slots : Set Nat} {front back : List (BitVec 64)}
  {run run' : WVMRun}

/-- Writing the same value keeps two runs together. -/
theorem Together.wrote (together : Together slots front.length run run') {word : BitVec 64}
    {reg : BitVec 16} {value : BitVec 64} {after after' : WVMRun}
    (wrote : run.Wrote reg value after) (wrote' : run'.Wrote reg value after') :
    Together (insert reg.toNat slots) (front ++ [word]).length after after' := by
  refine ⟨⟨wrote.result, wrote'.result⟩, ⟨?_, ?_⟩, fun slot member => ?_⟩
  · rw [wrote.pc, together.pc.1, List.length_append, List.length_singleton]
  · rw [wrote'.pc, together.pc.2, List.length_append, List.length_singleton]
  -- Only the written register changes, and it holds the same value in both runs.
  · rw [wrote.stack, wrote'.stack]
    by_cases same : slot = reg.toNat
    · rw [same, Function.update_self, Function.update_self]
    · rw [Function.update_of_ne same, Function.update_of_ne same]
      exact together.agree slot (member.resolve_left same)

/-- Both runs read the same word. -/
theorem Together.at (together : Together slots front.length run run')
    (count : proto.instrCount.toNat = (proto.instrs.getD []).length) {word : BitVec 64}
    (split : proto.instrs.getD [] = front ++ word :: back) :
    (run.pc < proto.instrCount ∧ proto.instrAt run.pc = word) ∧
      run'.pc < proto.instrCount ∧ proto.instrAt run'.pc = word :=
  ⟨instrAt_of_split count split together.pc.1, instrAt_of_split count split together.pc.2⟩

/-- Loading an operand keeps two runs together. -/
theorem Together.load (together : Together slots front.length run run')
    (count : proto.instrCount.toNat = (proto.instrs.getD []).length) {word : BitVec 64}
    (split : proto.instrs.getD [] = front ++ word :: back) {scratch : BitVec 16}
    {payload : MALOperandPayload} (loads : LoadsImm scratch payload word) :
    Together (insert scratch.toNat slots) (front ++ [word]).length (wvmStep proto run)
      (wvmStep proto run') := by
  -- Both runs are at the load.
  obtain ⟨⟨inside, here⟩, inside', here'⟩ := together.at count split
  exact together.wrote (wvmStep_load loads together.going.1 inside here)
    (wvmStep_load loads together.going.2 inside' here')

/-- Sources on which two runs agree have the same values. -/
theorem Together.sources (together : Together slots front.length run run')
    {sources : List (BitVec 16)} (known : ∀ source ∈ sources, source.toNat ∈ slots) :
    sources.map run.slot = sources.map run'.slot :=
  List.map_congr_left fun source member => together.agree _ (known source member)

/-- An operation on sources on which two runs agree fails in both or writes the same value. -/
theorem Together.main (together : Together slots front.length run run')
    (count : proto.instrCount.toNat = (proto.instrs.getD []).length) {word : BitVec 64}
    (split : proto.instrs.getD [] = front ++ word :: back) {opcode : MALOpcode} {dst : BitVec 16}
    {sources : List (BitVec 16)} (other : opcode ≠ .ret)
    (emitted : wvmMain opcode dst sources = some word)
    (known : ∀ source ∈ sources, source.toNat ∈ slots) :
    EndedAlike (wvmStep proto run) (wvmStep proto run') ∨
      Together (insert dst.toNat slots) (front ++ [word]).length (wvmStep proto run)
        (wvmStep proto run') := by
  obtain ⟨⟨inside, here⟩, inside', here'⟩ := together.at count split
  have step := wvmStep_main other emitted together.going.1 inside here
  have step' := wvmStep_main other emitted together.going.2 inside' here'
  -- The sources agree, so the operation has the same output in both runs.
  rw [← together.sources known] at step'
  cases output : wvmOutput opcode (sources.map run.slot) with
  | none =>
    rw [output] at step step'
    exact .inl ⟨false, step, step', nofun⟩
  | some value =>
    rw [output] at step step'
    exact .inr (together.wrote step step')

/-- A return of a register on which two runs agree ends them alike. -/
theorem Together.return (together : Together slots front.length run run')
    (count : proto.instrCount.toNat = (proto.instrs.getD []).length) {word : BitVec 64}
    (split : proto.instrs.getD [] = front ++ word :: back) {dst source : BitVec 16}
    (emitted : wvmMain .ret dst [source] = some word) (known : source.toNat ∈ slots) :
    EndedAlike (wvmStep proto run) (wvmStep proto run') := by
  obtain ⟨⟨inside, here⟩, inside', here'⟩ := together.at count split
  obtain ⟨result, stack⟩ := wvmStep_return emitted together.going.1 inside here
  obtain ⟨result', stack'⟩ := wvmStep_return emitted together.going.2 inside' here'
  -- Both runs end, and what they return is what the register held.
  refine ⟨true, result, result', fun _ => ?_⟩
  rw [stack, stack', Function.update_self, Function.update_self]
  exact together.agree _ known

/-- The registers that an instruction reads are those among its payloads. -/
theorem MALInst.mem_reads {inst : MALInst} {reg : BitVec 32}
    (member : .reg reg ∈ inst.operands.map (·.payload)) : reg.toNat ∈ inst.reads := by
  obtain ⟨operand, inside, payload⟩ := List.mem_map.mp member
  refine List.mem_filterMap.mpr ⟨operand, inside, ?_⟩
  rw [MALOperand.reg?, payload]

/-- The slot of the register that an instruction names. -/
def wvmSlot (reg : Nat) : Nat := reg % 2 ^ 16

/-- The register number that an instruction can hold is the slot. -/
theorem toNat_setWidth_slot (reg : BitVec 32) : (reg.setWidth 16).toNat = wvmSlot reg.toNat :=
  BitVec.toNat_setWidth _ _

/-- The loads of an instruction leave two runs together, which agree on its sources then. -/
theorem Together.loaded {vm vm' : WVMState} {rounds : Nat}
    (together : Together slots front.length (wvmExecute vm proto rounds)
      (wvmExecute vm' proto rounds))
    (count : proto.instrCount.toNat = (proto.instrs.getD []).length) {scratch : BitVec 16}
    {inst : MALInst} {loads : List (BitVec 64)} {sources : List (BitVec 16)}
    (loaded : Loaded scratch (inst.operands.map (·.payload)) loads sources)
    (split : proto.instrs.getD [] = front ++ (loads ++ back))
    (known : ∀ reg ∈ inst.reads, wvmSlot reg ∈ slots) :
    ∃ later slots', slots ⊆ slots' ∧ (∀ source ∈ sources, source.toNat ∈ slots') ∧
      Together slots' (front ++ loads).length (wvmExecute vm proto later)
        (wvmExecute vm' proto later) := by
  have register : ∀ {reg : BitVec 32}, .reg reg ∈ inst.operands.map (·.payload) →
      (reg.setWidth 16).toNat ∈ slots := by
    intro reg member
    rw [toNat_setWidth_slot]
    exact known _ (MALInst.mem_reads member)
  -- Two forms load nothing, and two load one immediate.
  generalize payloads : inst.operands.map (·.payload) = list at loaded register
  cases loaded with
  | reg source =>
    rw [List.append_nil]
    refine ⟨rounds, slots, subset_rfl, fun other member => ?_, together⟩
    rw [List.mem_singleton.mp member]
    exact register List.mem_cons_self
  -- The scratch register is written in both runs, and read afterwards.
  | imm load =>
    refine ⟨rounds + 1, _, Set.subset_insert _ _, fun other member => ?_,
      together.load count split load⟩
    rw [List.mem_singleton.mp member]
    exact Set.mem_insert _ _
  | regs lhs rhs =>
    rw [List.append_nil]
    refine ⟨rounds, slots, subset_rfl, ?_, together⟩
    rw [List.forall_mem_cons, List.forall_mem_singleton]
    exact ⟨register List.mem_cons_self, register (List.mem_cons_of_mem _ List.mem_cons_self)⟩
  | regImm lhs load =>
    refine ⟨rounds + 1, _, Set.subset_insert _ _, ?_, together.load count split load⟩
    rw [List.forall_mem_cons, List.forall_mem_singleton]
    exact ⟨Set.mem_insert_of_mem _ (register List.mem_cons_self), Set.mem_insert _ _⟩

/-- Runs that agree on slots agree on fewer of them. -/
theorem Together.mono {slots' : Set Nat} {place : Nat} (together : Together slots' place run run')
    (fewer : slots ⊆ slots') : Together slots place run run' :=
  ⟨together.going, together.pc, fun slot member => together.agree slot (fewer member)⟩

/-- Executing all of an instruction that reads only slots on which two runs agree. -/
theorem Together.line {vm vm' : WVMState} {rounds : Nat}
    (together : Together slots front.length (wvmExecute vm proto rounds)
      (wvmExecute vm' proto rounds))
    (count : proto.instrCount.toNat = (proto.instrs.getD []).length) {scratch : BitVec 16}
    {inst : MALInst} {words : List (BitVec 64)} (emits : WVMEmits scratch inst words)
    (split : proto.instrs.getD [] = front ++ (words ++ back))
    (known : ∀ reg ∈ inst.reads, wvmSlot reg ∈ slots) :
    ∃ later, EndedAlike (wvmExecute vm proto later) (wvmExecute vm' proto later) ∨
      inst.opcode ≠ .ret ∧ Together (insert (wvmSlot inst.dst) slots) (front ++ words).length
        (wvmExecute vm proto later) (wvmExecute vm' proto later) := by
  -- The last word returns, or writes the destination in both runs.
  cases emits with
  | @line loads sources main loaded emitted =>
    rw [List.append_assoc] at split
    obtain ⟨later, slots', more, sourced, before⟩ := together.loaded count loaded split known
    rw [← List.append_assoc, List.singleton_append] at split
    refine ⟨later + 1, ?_⟩
    -- A return ends both runs with the same slot.
    by_cases returns : inst.opcode = .ret
    · left
      rw [returns] at emitted
      obtain ⟨source, rfl⟩ := wvmMain_ret emitted
      exact before.return count split emitted (sourced source List.mem_cons_self)
    · refine (before.main count split returns emitted sourced).imp id fun after => ⟨returns, ?_⟩
      rw [← List.append_assoc]
      have slot : (BitVec.ofNat 16 inst.dst).toNat = wvmSlot inst.dst := BitVec.toNat_ofNat _ _
      rw [slot] at after
      exact after.mono (Set.insert_subset_insert more)
  -- The load itself is the whole line.
  | @here payload load copies operand loads same =>
    refine ⟨rounds + 1, .inr ⟨by rw [copies]; decide, ?_⟩⟩
    have slot : scratch.toNat = wvmSlot inst.dst := by
      rw [same]
      exact BitVec.toNat_ofNat _ _
    rw [← slot]
    exact together.load count split loads

end Lines

/-- Code that reads no slot before it has written it, and ends in a return, ends alike in two runs
that agree on the slots written so far. -/
theorem Together.lines {proto : WVMPrototype} {vm vm' : WVMState}
    (count : proto.instrCount.toNat = (proto.instrs.getD []).length) {scratch : BitVec 16}
    {insts : List MALInst} {code : List (List (BitVec 64))}
    (emits : List.Forall₂ (WVMEmits scratch) insts code) :
    ∀ {front : List (BitVec 64)} {slots : Set Nat} {rounds : Nat},
      Together slots front.length (wvmExecute vm proto rounds) (wvmExecute vm' proto rounds) →
      proto.instrs.getD [] = front ++ code.flatten →
      (∀ before inst after, insts = before ++ inst :: after → ∀ reg ∈ inst.reads,
        wvmSlot reg ∈ slots ∨ reg ∈ malDefs before) →
      (insts.getLast?.map (·.opcode)) = some .ret → SameOutcome proto vm vm' := by
  -- Induction on the instructions, each of which adds its destination to the slots.
  induction emits with
  | nil =>
    intro front slots rounds _ _ _ last
    cases last
  | @cons inst words insts code head tail ih =>
    intro front slots rounds together split known last
    rw [List.flatten_cons] at split
    -- What the first instruction reads has been written before.
    have own : ∀ reg ∈ inst.reads, wvmSlot reg ∈ slots := by
      intro reg read
      exact (known [] inst insts rfl reg read).resolve_right (by simp [malDefs])
    obtain ⟨later, ended | ⟨other, after⟩⟩ := together.line count head split own
    · exact ⟨later, ended⟩
    · refine ih after (by rw [List.append_assoc]; exact split) ?_ ?_
      · intro before next rest position reg read
        rcases known (inst :: before) next rest (by rw [position]; rfl) reg read with old | new
        · exact .inl (Set.mem_insert_of_mem _ old)
        · rw [malDefs_cons] at new
          rcases List.mem_append.mp new with here | there
          -- A register that the first instruction defines is written now.
          · left
            rw [Option.mem_toList] at here
            have same : inst.dst = reg := by
              unfold MALInst.defines at here
              split at here
              · cases here
              · exact Option.some.inj here
            rw [same]
            exact Set.mem_insert _ _
          · exact .inr there
      · cases insts with
        | nil => exact absurd (Option.some.inj last) other
        | cons next rest => simpa using last

/-- Code for a function without parameters that the single-assignment verifier accepts and that
returns a register in the end gives the same outcome on any two machines. -/
theorem WVMCompiled.sameOutcome {fn : MALFunction} (noParams : fn.paramCount = 0)
    (verified : malVerifySSA fn = true) (ends : fn.insts.getLast?.map (·.opcode) = some .ret)
    {scratch : BitVec 16} {code : List (List (BitVec 64))} {proto : WVMPrototype}
    (compiled : WVMCompiled fn.insts scratch code proto) (vm vm' : WVMState) :
    SameOutcome proto vm vm' := by
  have full : fn.insts ≠ [] := by
    intro empty
    rw [empty] at ends
    cases ends
  obtain ⟨-, -, ordered, -, defined⟩ := (malVerifySSA_iff fn).mp verified
  -- The verifier's verdict is the same in both executions.
  cases verdict : wvmVerifyPrototype proto with
  | error text =>
    have refused : ∀ vm : WVMState, (wvmExecute vm proto 0).result = some false := by
      intro vm
      rw [wvmExecute, wvmStart, verdict]
    exact ⟨0, false, refused vm, refused vm', fun succeeded => absurd succeeded Bool.false_ne_true⟩
  | ok =>
    have start : Together ∅ ([] : List (BitVec 64)).length (wvmExecute vm proto 0)
        (wvmExecute vm' proto 0) := by
      rw [wvmExecute, wvmExecute, wvmStart, wvmStart, verdict]
      exact ⟨⟨rfl, rfl⟩, ⟨rfl, rfl⟩, fun reg member => absurd member (Set.notMem_empty reg)⟩
    refine start.lines compiled.count compiled.emits (compiled.instrs full) ?_ ends
    intro before inst after split reg read
    -- Every register that is read is defined somewhere, and not from here on.
    have somewhere := (defined inst (split ▸ List.mem_append_right _ List.mem_cons_self) reg
      read).resolve_left (by omega)
    rw [split, malDefs_append, List.mem_append] at somewhere
    exact .inr (somewhere.resolve_right (ordered before inst after split reg read))

/-- A function without parameters that the single-assignment verifier accepts and that returns a
register in the end gives the same outcome whatever the virtual machine has done before. -/
theorem wvmExecute_isolated {fn : MALFunction} {block : MALBlock} (single : fn.blocks = [block])
    (noParams : fn.paramCount = 0) (verified : malVerifySSA fn = true) {last : MALInst}
    (isLast : block.last = some last) (returns : last.opcode = .ret)
    {triple : Option String} {kind : MDSTargetKind} {selector : Option MDSInstrSelector}
    (stock : StockSelector (mdsLoadMachine kind) selector) {program : MDSProgram}
    (lowered : mdsLowerFromMAL ⟨[fn], triple⟩ selector (mdsLoadMachine kind) = some program)
    {final : TOSProgram} (finalized : tosFinalizeProgram (tosBuildFromMDS program) = (true, final))
    {name source : Option CString} {proto : WVMPrototype}
    (encoded : wvmPrototypeFromTOS final name source = some proto) (vm vm' : WVMState) :
    SameOutcome proto vm vm' := by
  rw [stock.lower] at lowered
  have stream := tosStreams_finalize single lowered
  rw [finalized] at stream
  obtain ⟨-, code, compiled⟩ := wvmPrototypeFromTOS_compiled stream encoded
  -- The function has one block, whose last instruction is the return.
  have insts : fn.insts = block.insts := by
    rw [MALFunction.insts, single, List.flatMap_singleton]
  have ends : fn.insts.getLast?.map (·.opcode) = some .ret := by
    rw [insts, show block.insts.getLast? = some last from isLast, Option.map_some, returns]
  exact compiled.sameOutcome noParams verified ends vm vm'

/-- A function that returns the constant five. -/
def malReturnFive : MALFunction :=
  ⟨"five", .i32, [], 0,
    [⟨0, [⟨0, .copy, .i32, 0, [malOperandImmInt 5 .i32]⟩,
      ⟨1, .ret, .void, malInvalidReg, [malOperandReg 0 .i32]⟩], [], []⟩], 1⟩

/-- The program of this function for the generic machine. -/
def mdsReturnFive : MDSProgram where
  machine := some (mdsLoadMachine .generic)
  blocks :=
    [⟨0, [⟨some (mdsInitInstruction 1 "generic.mov.ri" mdsBinaryImm),
        [malOperandReg 0 .i32, malOperandImmInt 5 .i32]⟩,
      ⟨some (mdsInitInstruction 20 "generic.ret" mdsRetOps), [malOperandReg 0 .i32]⟩], []⟩]

/-- A fresh machine and one whose registers are full of truth values agree about five. -/
theorem wvmExecute_isolated_five :
    ∃ proto, wvmPrototypeFromTOS (tosFinalizeProgram (tosBuildFromMDS mdsReturnFive)).2 none none =
      some proto ∧ SameOutcome proto wvmCreate
        { wvmCreate with stack := fun _ => wvmValueTrue, stackSize := 7 } := by
  obtain ⟨proto, encoded⟩ := Option.isSome_iff_exists.mp
    (show (wvmPrototypeFromTOS (tosFinalizeProgram (tosBuildFromMDS mdsReturnFive)).2
      none none).isSome = true by decide)
  have stock : StockSelector (mdsLoadMachine .generic) none := rfl
  have single : malReturnFive.blocks = [_] := rfl
  have lowered : mdsLowerFromMAL ⟨[malReturnFive], none⟩ none (mdsLoadMachine .generic) =
      some mdsReturnFive := by decide
  -- Nothing but the compiled code decides the outcome.
  exact ⟨proto, encoded, wvmExecute_isolated single rfl (by decide) rfl rfl stock lowered
    (Prod.ext (by decide) rfl) encoded _ _⟩

end Wirble
