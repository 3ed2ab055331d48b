import Mathlib.Data.List.Forall2
import Wirble.Library.Dag
import Wirble.Library.Search
import Wirble.Mds.Printer

/-! When the bytes of a machine program determine its instructions. -/

namespace Wirble

/-- The kind of an operand is the one its description asks for. -/
def OperandShaped (desc : MDSOperandDesc) (operand : MALOperand) : Prop :=
  if desc.isImm then mdsIsImmediate operand = true else operand.isReg = true

/-- An instruction whose first byte decodes to its descriptor, with all operands of the latter. -/
structure InstShaped (machine : MDSMachine) (inst : MDSInst) : Prop where
  decodes : mdsDecodeInstruction machine (mdsBufferBytes inst) = inst.desc
  operands : ∃ desc, inst.desc = some desc ∧
    List.Forall₂ OperandShaped desc.operands inst.operands

/-- Immediates that are written as zero: every double and the integer zero. -/
def MALOperand.Dropped (operand : MALOperand) : Prop :=
  (∃ value, operand.payload = .immFloat value) ∨ operand.payload = .immInt 0

/-- Operands of one value, or immediates that are both written as zero. -/
def SameOrDropped (operand operand' : MALOperand) : Prop :=
  operand.payload = operand'.payload ∨ operand.Dropped ∧ operand'.Dropped

/-- Instructions of one descriptor whose operands are written alike. -/
def SameWritten (inst inst' : MDSInst) : Prop :=
  inst.desc = inst'.desc ∧ List.Forall₂ SameOrDropped inst.operands inst'.operands

/-- Widening loses nothing. -/
theorem setWidth_inj {x y : BitVec 32} : x.setWidth 64 = y.setWidth 64 ↔ x = y := by
  constructor
  · intro same
    -- Narrowing the wide words gives the narrow ones back.
    have narrow : ∀ z : BitVec 32, (z.setWidth 64).setWidth 32 = z := fun z => by
      rw [BitVec.setWidth_setWidth_of_le z (by decide), BitVec.setWidth_eq]
    rw [← narrow x, same, narrow]
  · rintro rfl
    rfl

/-- An immediate is an integer or a floating-point number. -/
theorem mdsIsImmediate_cases {operand : MALOperand} (imm : mdsIsImmediate operand = true) :
    (∃ value, operand.payload = .immInt value) ∨ ∃ value, operand.payload = .immFloat value := by
  unfold mdsIsImmediate at imm
  split at imm
  · rename_i value same
    exact .inl ⟨value, same⟩
  · rename_i value same
    exact .inr ⟨value, same⟩
  · cases imm

/-- A register operand carries a register. -/
theorem MALOperand.isReg_cases {operand : MALOperand} (reg : operand.isReg = true) :
    ∃ value, operand.payload = .reg value := by
  unfold MALOperand.isReg at reg
  split at reg
  · rename_i value same
    exact ⟨value, same⟩
  · cases reg

/-- Operands of one kind have the same payload just when they are written alike. -/
theorem mdsBufferPayload_eq_iff {desc : MDSOperandDesc} {operand operand' : MALOperand}
    (shaped : OperandShaped desc operand) (shaped' : OperandShaped desc operand') :
    mdsBufferPayload operand = mdsBufferPayload operand' ↔ SameOrDropped operand operand' := by
  -- An immediate is written as its integer or as zero, a register as its number.
  unfold OperandShaped at shaped shaped'
  unfold mdsBufferPayload SameOrDropped MALOperand.Dropped
  cases imm : desc.isImm with
  | true =>
    simp only [imm, if_true] at shaped shaped'
    rcases mdsIsImmediate_cases shaped with ⟨x, int⟩ | ⟨x, float⟩ <;>
      rcases mdsIsImmediate_cases shaped' with ⟨y, int'⟩ | ⟨y, float'⟩
    · -- Two integers are dropped together only if both are zero.
      simp only [int, int', MALOperandPayload.immInt.injEq, reduceCtorEq, exists_const, false_or]
      constructor
      · exact .inl
      · rintro (same | ⟨rfl, rfl⟩)
        · exact same
        · rfl
    · simp [int, float']
    -- An integer is dropped, which looks like zero bits.
    · have flip : 0#64 = y ↔ y = 0#64 := eq_comm
      simp [float, int', flip]
    · simp [float, float']
  -- Registers are written by their number.
  | false =>
    simp only [imm, Bool.false_eq_true, if_false] at shaped shaped'
    obtain ⟨x, reg⟩ := MALOperand.isReg_cases shaped
    obtain ⟨y, reg'⟩ := MALOperand.isReg_cases shaped'
    simp [reg, reg', setWidth_inj]

/-- Decoding looks at the first byte only. -/
theorem mdsDecodeInstruction_cons (machine : MDSMachine) (first : Byte) (rest : List Byte) :
    mdsDecodeInstruction machine (first :: rest) = mdsDecodeInstruction machine [first] := rfl

/-- The payloads of shaped operands are equal just when the operands are written alike. -/
theorem payloads_eq_iff {descs : List MDSOperandDesc} {operands operands' : List MALOperand}
    (shaped : List.Forall₂ OperandShaped descs operands)
    (shaped' : List.Forall₂ OperandShaped descs operands') :
    (operands.flatMap fun operand => mdsPayloadBytes (mdsBufferPayload operand)) =
        (operands'.flatMap fun operand => mdsPayloadBytes (mdsBufferPayload operand)) ↔
      List.Forall₂ SameOrDropped operands operands' := by
  induction shaped generalizing operands' with
  | nil =>
    cases shaped'
    simp
  | @cons desc operand descs operands head tail ih =>
    cases shaped' with
    | @cons _ operand' _ operands' head' tail' =>
      rw [List.forall₂_cons, ← ih tail', ← mdsBufferPayload_eq_iff head head',
        ← Bytes.encode_toNat_inj 8]
      simp only [List.flatMap_cons]
      constructor
      · intro same
        -- Both first payloads take eight bytes.
        exact List.append_inj same (by simp only [Bytes.length_encode])
      · rintro ⟨first, rest⟩
        rw [rest]
        exact congrArg (· ++ _) first

/-- Programs of shaped instructions have the same bytes just when their instructions are written
alike one by one. -/
theorem mdsBufferBytes_flatMap_eq_iff {machine : MDSMachine} {insts insts' : List MDSInst}
    (shaped : ∀ inst ∈ insts, InstShaped machine inst)
    (shaped' : ∀ inst ∈ insts', InstShaped machine inst) :
    insts.flatMap mdsBufferBytes = insts'.flatMap mdsBufferBytes ↔
      List.Forall₂ SameWritten insts insts' := by
  induction insts generalizing insts' with
  | nil =>
    -- A program with instructions has bytes.
    cases insts' with
    | nil => simp
    | cons inst' insts' => simp [mdsBufferBytes]
  | cons inst insts ih =>
    cases insts' with
    | nil => simp [mdsBufferBytes]
    | cons inst' insts' =>
      have head := shaped inst List.mem_cons_self
      have head' := shaped' inst' List.mem_cons_self
      have tail := ih (fun other member => shaped other (List.mem_cons_of_mem _ member))
        fun other member => shaped' other (List.mem_cons_of_mem _ member)
      obtain ⟨desc, has, operands⟩ := head.operands
      obtain ⟨desc', has', operands'⟩ := head'.operands
      rw [List.forall₂_cons, ← tail]
      simp only [List.flatMap_cons]
      -- Instructions of one descriptor take the same number of bytes.
      have lengths : inst.desc = inst'.desc →
          (mdsBufferBytes inst).length = (mdsBufferBytes inst').length := by
        intro same
        have equal : desc = desc' := Option.some.inj (has.symm.trans (same.trans has'))
        subst equal
        rw [length_mdsBufferBytes, length_mdsBufferBytes, ← operands.length_eq,
          ← operands'.length_eq]
      -- Under one descriptor the bytes agree just when the operands are written alike.
      have written : inst.desc = inst'.desc →
          (mdsBufferBytes inst = mdsBufferBytes inst' ↔ SameWritten inst inst') := by
        intro same
        have equal : desc = desc' := Option.some.inj (has.symm.trans (same.trans has'))
        subst equal
        rw [SameWritten, mdsBufferBytes, mdsBufferBytes, same, List.cons_eq_cons,
          payloads_eq_iff operands operands']
        simp
      constructor
      · intro same
        -- The first byte tells the descriptor, and with it the length.
        have first : mdsDecodeInstruction machine (mdsBufferBytes inst) =
            mdsDecodeInstruction machine (mdsBufferBytes inst') := by
          have bytes := (List.cons.inj same).1
          rw [mdsBufferBytes, mdsBufferBytes, mdsDecodeInstruction_cons, bytes,
            ← mdsDecodeInstruction_cons]
        rw [head.decodes, head'.decodes] at first
        obtain ⟨front, back⟩ := List.append_inj same (lengths first)
        exact ⟨(written first).mp front, back⟩
      · rintro ⟨front, back⟩
        rw [(written front.1).mpr front, back]

/-- The inputs of a descriptor: its operands without a leading output. -/
def MDSInstruction.inputs (desc : MDSInstruction) : List MDSOperandDesc :=
  match desc.operands with
  | first :: rest => if first.isOutput then rest else first :: rest
  | [] => []

/-- A pattern demands the inputs of the instruction it emits, which decodes from its first byte,
and only a return has no output. -/
def mdsPatternFits (machine : MDSMachine) (pattern : MDSPattern) : Bool :=
  match pattern.root, pattern.emitInstrs.head?.bind fun id => machine.instrById[id]? with
  | some (opcode, expected), some desc =>
    let output := (desc.operands.head?.map (·.isOutput)).getD false
    mdsDecodeInstruction machine [desc.fixedByte.getD 0] == some desc &&
      (opcode == .ret) == !output &&
      (!output || !(desc.operands.head?.map (·.isImm)).getD false) &&
      expected.map (fun demand => (demand.mustBeReg, demand.mustBeImm)) ==
        desc.inputs.map fun operand => (!operand.isImm, operand.isImm)
  | _, _ => false

/-- Every stock pattern fits its machine. -/
theorem mdsCreateSelector_fits (kind : MDSTargetKind) :
    ∀ pattern ∈ (mdsCreateSelector (mdsLoadMachine kind)).patterns,
      mdsPatternFits (mdsLoadMachine kind) pattern = true := by
  -- The targets differ in their mnemonics only.
  cases kind <;> decide

/-- A selector keeps the machine it was created for. -/
theorem mdsCreateSelector_machine (machine : MDSMachine) :
    (mdsCreateSelector machine).machine = machine := by
  -- Adding a pattern keeps the machine.
  have kept : ∀ (table : List (MALOpcode × String × Bool × Bool)) (selector : MDSInstrSelector),
      (table.foldl (fun selector entry =>
        mdsAddBuiltinPattern selector entry.1 entry.2.1 entry.2.2.1 entry.2.2.2)
        selector).machine = selector.machine := by
    intro table
    induction table with
    | nil => exact fun _ => rfl
    | cons entry table ih =>
      intro selector
      rw [List.foldl_cons, ih, mdsAddBuiltinPattern]
      split <;> rfl
  exact kept _ _

/-- The selected pattern is one of the selector's and matches. -/
theorem mdsSelectBestPattern_some {selector : MDSInstrSelector} {inst : MALInst}
    {pattern : MDSPattern} (selected : mdsSelectBestPattern selector inst = some pattern) :
    pattern ∈ selector.patterns ∧ mdsPatternMatchesInst pattern inst = true := by
  -- The best pattern so far is one that the loop has seen match.
  have seen : ∀ best, mdsSelectBestPattern selector inst = some best →
      best ∈ selector.patterns ∧ mdsPatternMatchesInst best inst = true := by
    unfold mdsSelectBestPattern
    -- The loop keeps a pattern of the list that matched.
    refine List.foldlRecOn (motive := fun result : Option MDSPattern => ∀ best,
      result = some best → best ∈ selector.patterns ∧ mdsPatternMatchesInst best inst = true)
      selector.patterns _ ?_ ?_
    · intro best found
      cases found
    · intro best known pattern member now updated
      split at updated
      · rename_i found
        cases best with
        | none =>
          obtain rfl := Option.some.inj updated
          exact ⟨member, found⟩
        | some current =>
          simp only at updated
          split at updated
          · obtain rfl := Option.some.inj updated
            exact ⟨member, found⟩
          · exact known now updated
      · exact known now updated
  exact seen pattern selected

/-- An operand that meets a demand has the kind that the demand stands for. -/
theorem operandShaped_of_demand {demand : MDSOperandConstraint} {desc : MDSOperandDesc}
    {operand : MALOperand} (reg : demand.mustBeReg = !desc.isImm)
    (imm : demand.mustBeImm = desc.isImm)
    (met : mdsMatchOperandConstraint demand operand = true) : OperandShaped desc operand := by
  unfold OperandShaped
  simp only [mdsMatchOperandConstraint, reg, imm, Bool.and_eq_true, Bool.or_eq_true] at met
  cases kind : desc.isImm <;> simp_all

/-- Operands that meet the demands of a pattern have the kinds of the inputs it demands. -/
theorem inputs_shaped {expected : List MDSOperandConstraint} {descs : List MDSOperandDesc}
    {operands : List MALOperand}
    (demands : expected.map (fun demand => (demand.mustBeReg, demand.mustBeImm)) =
      descs.map fun operand => (!operand.isImm, operand.isImm))
    (count : expected.length = operands.length)
    (met : (expected.zip operands).all
      (fun pair => mdsMatchOperandConstraint pair.1 pair.2) = true) :
    List.Forall₂ OperandShaped descs operands := by
  -- The induction is on the demands, with one description and one operand for each.
  induction expected generalizing descs operands with
  | nil =>
    obtain rfl := List.map_eq_nil_iff.mp demands.symm
    obtain rfl := List.length_eq_zero_iff.mp count.symm
    exact .nil
  | cons demand expected ih =>
    cases descs with
    | nil => cases demands
    | cons desc descs =>
      cases operands with
      -- As many operands are left as descriptions.
      | nil => cases count
      | cons operand operands =>
        simp only [List.map_cons, List.cons.injEq, Prod.mk.injEq] at demands
        simp only [List.zip_cons_cons, List.all_cons, Bool.and_eq_true] at met
        exact .cons (operandShaped_of_demand demands.1.1 demands.1.2 met.1)
          (ih demands.2 (Nat.succ.inj count) met.2)

/-- A selected instruction decodes, and has the destination and the operands of the source
instruction, which are of the kinds of the descriptor's inputs. Only a return has no output. -/
structure SelectedBy (machine : MDSMachine) (inst : MALInst) (out : MDSInst)
    (desc : MDSInstruction) : Prop where
  described : out.desc = some desc
  operands : out.operands = mdsDestination desc inst ++ inst.operands
  decodes : mdsDecodeInstruction machine (mdsBufferBytes out) = some desc
  inputs : List.Forall₂ OperandShaped desc.inputs inst.operands
  returns : inst.opcode = .ret ↔ (desc.operands.head?.map (·.isOutput)).getD false = false
  register : (desc.operands.head?.map (·.isOutput)).getD false = true →
    (desc.operands.head?.map (·.isImm)).getD false = false

/-- What the built-in patterns select for an instruction. -/
theorem mdsBuildSelectedInst_selectedBy {kind : MDSTargetKind} {inst : MALInst} {out : MDSInst}
    (built : mdsBuildSelectedInst (mdsCreateSelector (mdsLoadMachine kind)) inst = some out) :
    ∃ desc, SelectedBy (mdsLoadMachine kind) inst out desc := by
  -- The pattern that was selected is one of those made from the machine, and so fits it.
  unfold mdsBuildSelectedInst at built
  simp only [Option.bind_eq_bind, Option.bind_eq_some_iff, Option.pure_def,
    Option.some.injEq] at built
  obtain ⟨pattern, selected, desc, emitted, rfl⟩ := built
  obtain ⟨member, found⟩ := mdsSelectBestPattern_some selected
  have fits := mdsCreateSelector_fits kind pattern member
  rw [mdsDescFromPattern, mdsCreateSelector_machine] at emitted
  unfold mdsPatternFits at fits
  unfold mdsPatternMatchesInst at found
  rw [emitted] at fits
  -- A pattern without root matches nothing.
  cases root : pattern.root with
  | none => simp [root] at found
  | some pair =>
    obtain ⟨opcode, expected⟩ := pair
    simp only [root, Bool.and_eq_true, beq_iff_eq] at found fits
    obtain ⟨⟨sameOpcode, count⟩, met⟩ := found
    obtain ⟨⟨⟨decodes, returns⟩, register⟩, demands⟩ := fits
    -- What fits the machine decodes, and the operands are those demanded.
    refine ⟨desc, rfl, rfl, ?_, inputs_shaped demands count met, ?_, ?_⟩
    · rw [mdsBufferBytes, mdsDecodeInstruction_cons]
      exact decodes
    · rw [← sameOpcode, ← beq_iff_eq, returns, Bool.not_eq_true']
    · intro output
      simpa [output] using register

/-- A selected instruction decodes, and has all operands of its descriptor if the source
instruction has a destination or is a return. -/
theorem mdsBuildSelectedInst_shaped {kind : MDSTargetKind} {inst : MALInst} {out : MDSInst}
    (built : mdsBuildSelectedInst (mdsCreateSelector (mdsLoadMachine kind)) inst = some out) :
    mdsDecodeInstruction (mdsLoadMachine kind) (mdsBufferBytes out) = out.desc ∧
      ((inst.opcode ≠ .ret → inst.dst ≠ malInvalidReg) → InstShaped (mdsLoadMachine kind) out) := by
  obtain ⟨desc, selected⟩ := mdsBuildSelectedInst_selectedBy built
  have first := selected.decodes.trans selected.described.symm
  refine ⟨first, fun aligned => ⟨first, desc, selected.described, ?_⟩⟩
  have inputs := selected.inputs
  have returns := selected.returns
  have register := selected.register
  rw [selected.operands]
  unfold MDSInstruction.inputs at inputs
  unfold mdsDestination
  -- The destination stands where the descriptor has its output.
  cases operands : desc.operands with
  | nil => simpa [operands] using inputs
  | cons head tail =>
    simp only [operands, List.head?_cons, Option.map_some, Option.getD_some] at returns register
    rcases Bool.eq_false_or_eq_true head.isOutput with output | output
    · have notReturn : inst.opcode ≠ .ret := by
        intro isReturn
        rw [returns.mp isReturn] at output
        cases output
      -- The destination is a register, as the descriptor demands.
      have shaped : OperandShaped head (malOperandReg inst.dst inst.type) := by
        simp [OperandShaped, register output, malOperandReg, MALOperand.isReg]
      simp only [operands, output, if_true] at inputs
      simp only [aligned notReturn, output, if_true, if_false, List.singleton_append]
      exact .cons shaped inputs
    · simp only [operands, output, Bool.false_eq_true, if_false] at inputs
      simpa [output] using inputs

/-- Every instruction of a module other than a return has a destination. -/
def MALModule.Aligned (module : MALModule) : Prop :=
  ∀ fn ∈ module.functions, ∀ inst ∈ fn.insts, inst.opcode ≠ .ret → inst.dst ≠ malInvalidReg

/-- The instructions of a lowered program come from the instructions of the module. -/
theorem mdsLowerFromMAL_insts {module : MALModule} {selector : Option MDSInstrSelector}
    {machine : MDSMachine} {program : MDSProgram}
    (lowered : mdsLowerFromMAL module selector machine = some program) :
    ∀ out ∈ program.insts, ∃ fn ∈ module.functions, ∃ inst ∈ fn.insts,
      mdsBuildSelectedInst (selector.getD (mdsCreateSelector machine)) inst = some out := by
  obtain ⟨blocks, each, rfl⟩ := Option.map_eq_some_iff.mp lowered
  -- An instruction of the program belongs to a block, which was lowered from one of the module.
  intro out member
  obtain ⟨block', place', inside'⟩ := List.mem_flatMap.mp member
  obtain ⟨block, place, lower⟩ := Search.mapM_some_mem each place'
  obtain ⟨instructions, select, rfl⟩ := Option.map_eq_some_iff.mp lower
  obtain ⟨inst, inside, built⟩ := Search.mapM_some_mem select inside'
  obtain ⟨fn, function, inFunction⟩ := List.mem_flatMap.mp place
  exact ⟨fn, function, inst, List.mem_flatMap.mpr ⟨block, inFunction, inside⟩, built⟩

/-- Lowering selects an instruction for each one of the module. -/
theorem mdsLowerFromMAL_selected {module : MALModule} {selector : Option MDSInstrSelector}
    {machine : MDSMachine} {program : MDSProgram}
    (lowered : mdsLowerFromMAL module selector machine = some program) :
    List.Forall₂ (fun inst out =>
        mdsBuildSelectedInst (selector.getD (mdsCreateSelector machine)) inst = some out)
      (module.functions.flatMap (·.insts)) program.insts := by
  obtain ⟨blocks, each, rfl⟩ := Option.map_eq_some_iff.mp lowered
  have lines : module.functions.flatMap (·.insts) =
      (module.functions.flatMap (·.blocks)).flatMap (·.insts) := by
    rw [List.flatMap_assoc]
    rfl
  rw [lines]
  -- Blocks are lowered one by one, and so are their instructions.
  refine List.rel_flatMap (Dag.mapM_eq_some_iff.mp each) fun block lowered' lower => ?_
  obtain ⟨instructions, select, rfl⟩ := Option.map_eq_some_iff.mp lower
  exact Dag.mapM_eq_some_iff.mp select

/-- The descriptors and operand values of a program in block and instruction order. -/
def MDSProgram.values (program : MDSProgram) :
    List (Option MDSInstruction × List MALOperandPayload) :=
  program.insts.map fun inst => (inst.desc, inst.operands.map (·.payload))

/-- The bytes of one program determine those of another of the same machine, and the first byte of
each instruction its descriptor. -/
def Decodable (machine : MDSMachine) (program program' : MDSProgram) : Prop :=
  (mdsEmitBuffer program = mdsEmitBuffer program' → program.values = program'.values) ∧
    ∀ inst ∈ program.insts ++ program'.insts,
      mdsDecodeInstruction machine ((mdsBufferBytes inst).take 1) = inst.desc

/-- Two programs have the same instructions one by one, but for immediates that are a double or
the integer zero in both, and these are not all equal. -/
def DifferInDropped (program program' : MDSProgram) : Prop :=
  List.Forall₂ SameWritten program.insts program'.insts ∧ program.values ≠ program'.values

/-- Lowered programs with all destinations are decodable unless they differ just in immediates
that are written as zero. -/
theorem mdsEmitBuffer_decodable_iff (kind : MDSTargetKind) (module module' : MALModule)
    (program program' : MDSProgram)
    (lowered : mdsLowerFromMAL module none (mdsLoadMachine kind) = some program)
    (lowered' : mdsLowerFromMAL module' none (mdsLoadMachine kind) = some program')
    (aligned : module.Aligned) (aligned' : module'.Aligned) :
    Decodable (mdsLoadMachine kind) program program' ↔ ¬ DifferInDropped program program' := by
  have shaped : ∀ (source : MALModule) (target : MDSProgram),
      mdsLowerFromMAL source none (mdsLoadMachine kind) = some target → source.Aligned →
        ∀ inst ∈ target.insts, InstShaped (mdsLoadMachine kind) inst := by
    intro source target lower align out member
    obtain ⟨fn, function, inst, inside, built⟩ := mdsLowerFromMAL_insts lower out member
    simp only [Option.getD_none] at built
    exact (mdsBuildSelectedInst_shaped built).2 (align fn function inst inside)
  -- Equal bytes are equal instructions up to immediates that are written as zero.
  have same := mdsBufferBytes_flatMap_eq_iff (shaped module program lowered aligned)
    (shaped module' program' lowered' aligned')
  rw [← mdsEmitBuffer_eq, ← mdsEmitBuffer_eq] at same
  constructor
  · rintro ⟨determined, -⟩ ⟨written, differ⟩
    exact differ (determined (same.mpr written))
  · intro never
    constructor
    · intro bytes
      by_contra differ
      exact never ⟨same.mp bytes, differ⟩
    · intro inst member
      -- Every instruction of either program decodes to its descriptor.
      have decodes : mdsDecodeInstruction (mdsLoadMachine kind) (mdsBufferBytes inst) =
          inst.desc := by
        rcases List.mem_append.mp member with first | second
        · exact (shaped module program lowered aligned inst first).decodes
        · exact (shaped module' program' lowered' aligned' inst second).decodes
      exact decodes

/-- A module that copies one immediate into a register. -/
def malCopyModule (operand : MALOperand) : MALModule where
  functions :=
    [⟨"copy", .void, [], 0, [⟨0, [⟨0, .copy, operand.type, 0, [operand]⟩], [], []⟩], 1⟩]
  targetTriple := none

/-- The program of this module for the generic machine. -/
def mdsCopyProgram (operand : MALOperand) : MDSProgram where
  machine := some (mdsLoadMachine .generic)
  blocks :=
    [⟨0, [⟨some (mdsInitInstruction 1 "generic.mov.ri" mdsBinaryImm),
      [malOperandReg 0 operand.type, operand]⟩], []⟩]

/-- The module is aligned: nothing but its one instruction counts. -/
theorem malCopyModule_aligned (operand : MALOperand) : (malCopyModule operand).Aligned := by
  intro fn member inst inside other
  obtain rfl := List.mem_singleton.mp member
  obtain rfl := List.mem_singleton.mp inside
  exact of_decide_eq_true rfl

/-- Copies of different integers are told apart. -/
theorem mdsEmitBuffer_decodable_copies :
    Decodable (mdsLoadMachine .generic) (mdsCopyProgram (malOperandImmInt 1 .i32))
      (mdsCopyProgram (malOperandImmInt 2 .i32)) := by
  refine (mdsEmitBuffer_decodable_iff .generic (malCopyModule (malOperandImmInt 1 .i32))
    (malCopyModule (malOperandImmInt 2 .i32)) _ _ (by decide) (by decide)
    (malCopyModule_aligned _) (malCopyModule_aligned _)).mpr ?_
  -- The only operand is an integer, neither a floating-point number nor zero.
  rintro ⟨written, -⟩
  obtain ⟨⟨-, operands⟩, -⟩ := List.forall₂_cons.mp written
  obtain ⟨-, immediates⟩ := List.forall₂_cons.mp operands
  rcases (List.forall₂_cons.mp immediates).1 with same | ⟨⟨value, float⟩ | zero, -⟩
  · exact absurd same (by decide)
  · cases float
  · exact absurd zero (by decide)

/-- The doubles 1.5 and 2.5 are both written as zero. -/
theorem mdsEmitBuffer_not_decodable :
    ¬ ∀ (kind : MDSTargetKind) (module module' : MALModule) (program program' : MDSProgram),
      mdsLowerFromMAL module none (mdsLoadMachine kind) = some program →
      mdsLowerFromMAL module' none (mdsLoadMachine kind) = some program' →
        Decodable (mdsLoadMachine kind) program program' := by
  intro decodable
  -- Integers agree on both sides, since there are none.
  have determined := (decodable .generic
    (malCopyModule (malOperandImmFloat 0x3FF8000000000000#64 .f64))
    (malCopyModule (malOperandImmFloat 0x4004000000000000#64 .f64))
    (mdsCopyProgram (malOperandImmFloat 0x3FF8000000000000#64 .f64))
    (mdsCopyProgram (malOperandImmFloat 0x4004000000000000#64 .f64))
    (by decide) (by decide)).1 (by decide)
  revert determined
  decide

end Wirble
