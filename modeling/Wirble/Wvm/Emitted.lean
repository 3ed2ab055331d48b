import Wirble.Wvm.Decode
import Wirble.Wvm.Values
import Wirble.Mds.Decodable

/-! The bytecode that selected instructions are emitted as. -/

namespace Wirble

/-- The last instruction that is emitted for an opcode, from registers to a register. -/
def wvmMain (opcode : MALOpcode) (dst : BitVec 16) : List (BitVec 16) → Option (BitVec 64)
  | [source] =>
    match opcode with
    | .ret => some (wvmEncodeOpR .return source)
    | .copy => some (wvmEncodeOpRr .move dst source)
    | .neg => some (wvmEncodeOpRr .neg dst source)
    | .not => some (wvmEncodeOpRr .not dst source)
    | _ => none
  | [lhs, rhs] => (wvmBinaryOpcode opcode).map (wvmEncodeOpRrr · dst lhs rhs)
  | _ => none

/-- The last word is a return, moves or changes one register, or combines two. -/
theorem wvmMain_cases {opcode : MALOpcode} {dst : BitVec 16} {sources : List (BitVec 16)}
    {main : BitVec 64} (emitted : wvmMain opcode dst sources = some main) :
    (∃ source, opcode = .ret ∧ sources = [source] ∧ main = wvmEncodeOpR .return source) ∨
    (∃ source op, sources = [source] ∧ main = wvmEncodeOpRr op dst source ∧
      (opcode = .copy ∧ op = .move ∨ opcode = .neg ∧ op = .neg ∨ opcode = .not ∧ op = .not)) ∨
    ∃ lhs rhs op, sources = [lhs, rhs] ∧ wvmBinaryOpcode opcode = some op ∧
      main = wvmEncodeOpRrr op dst lhs rhs := by
  -- The number of sources decides what can be emitted.
  rcases sources with _ | ⟨lhs, _ | ⟨rhs, _ | ⟨third, more⟩⟩⟩
  · cases emitted
  · rw [wvmMain.eq_def] at emitted
    simp only at emitted
    split at emitted
    · exact .inl ⟨lhs, rfl, rfl, (Option.some.inj emitted).symm⟩
    · exact .inr (.inl ⟨lhs, .move, rfl, (Option.some.inj emitted).symm, .inl ⟨rfl, rfl⟩⟩)
    · exact .inr (.inl ⟨lhs, .neg, rfl, (Option.some.inj emitted).symm, .inr (.inl ⟨rfl, rfl⟩)⟩)
    · exact .inr (.inl ⟨lhs, .not, rfl, (Option.some.inj emitted).symm, .inr (.inr ⟨rfl, rfl⟩)⟩)
    · cases emitted
  · obtain ⟨op, meant, rfl⟩ := Option.map_eq_some_iff.mp emitted
    exact .inr (.inr ⟨lhs, rhs, op, rfl, meant, rfl⟩)
  · cases emitted

/-- The instruction that loads an immediate into the scratch register. -/
inductive LoadsImm (scratch : BitVec 16) : MALOperandPayload → BitVec 64 → Prop where
  | small (value : BitVec 64) (fits : -2 ^ 31 ≤ value.toInt ∧ value.toInt ≤ 2 ^ 31 - 1) :
      LoadsImm scratch (.immInt value)
        (wvmEncodeOpRImm32 .loadImm scratch (value.setWidth 32))
  | wide (value : BitVec 64) (large : ¬ (-2 ^ 31 ≤ value.toInt ∧ value.toInt ≤ 2 ^ 31 - 1))
      (index : BitVec 32) :
      LoadsImm scratch (.immInt value) (wvmEncodeOpRConst .loadConst scratch index)
  | float (value : DoubleBits) (index : BitVec 32) :
      LoadsImm scratch (.immFloat value) (wvmEncodeOpRConst .loadConst scratch index)

/-- The instructions that load the immediates among the operands, and the registers that hold the
operands then. -/
inductive Loaded (scratch : BitVec 16) :
    List MALOperandPayload → List (BitVec 64) → List (BitVec 16) → Prop where
  | reg (source : BitVec 32) : Loaded scratch [.reg source] [] [source.setWidth 16]
  | imm {payload : MALOperandPayload} {load : BitVec 64} (loads : LoadsImm scratch payload load) :
      Loaded scratch [payload] [load] [scratch]
  | regs (lhs rhs : BitVec 32) :
      Loaded scratch [.reg lhs, .reg rhs] [] [lhs.setWidth 16, rhs.setWidth 16]
  | regImm (lhs : BitVec 32) {payload : MALOperandPayload} {load : BitVec 64}
      (loads : LoadsImm scratch payload load) :
      Loaded scratch [.reg lhs, payload] [load] [lhs.setWidth 16, scratch]

/-- A register that is the only operand is read where it is. -/
theorem Loaded.single (scratch : BitVec 16) {operands : List MALOperand} {source : MALOperand}
    {reg : BitVec 32} (inputs : operands = [source]) (payload : source.payload = .reg reg) :
    Loaded scratch (operands.map (·.payload)) [] [reg.setWidth 16] := by
  rw [inputs, List.map_singleton, payload]
  exact .reg reg

/-- The bytecode of a selected instruction. -/
inductive WVMEmits (scratch : BitVec 16) (inst : MALInst) : List (BitVec 64) → Prop where
  | line {loads : List (BitVec 64)} {sources : List (BitVec 16)} {main : BitVec 64}
      (loaded : Loaded scratch (inst.operands.map (·.payload)) loads sources)
      (emitted : wvmMain inst.opcode (BitVec.ofNat 16 inst.dst) sources = some main) :
      WVMEmits scratch inst (loads ++ [main])
  /-- An immediate that is loaded into its destination is not moved. -/
  | here {payload : MALOperandPayload} {load : BitVec 64} (copies : inst.opcode = .copy)
      (operand : inst.operands.map (·.payload) = [payload])
      (loads : LoadsImm scratch payload load) (same : scratch = BitVec.ofNat 16 inst.dst) :
      WVMEmits scratch inst [load]

/-- A selection pattern and the names of the instruction that it emits fit the opcode. -/
def wvmPatternEmits (machine : MDSMachine) (pattern : MDSPattern) : Bool :=
  match pattern.root, pattern.emitInstrs.head?.bind fun id => machine.instrById[id]? with
  | some (opcode, expected), some desc =>
    let demands := expected.map fun demand => (demand.mustBeReg, demand.mustBeImm)
    let names := ["mov.rr", "mov.ri", "ret", "neg", "not"].map (wvmNamed desc.mnemonic)
    (desc.operands.head?.map (·.isOutput)) == some (opcode != .ret) &&
      match opcode with
      | .copy => demands == [(true, false)] && names == [true, false, false, false, false] ||
        demands == [(false, true)] && names == [false, true, false, false, false]
      | .ret => demands == [(true, false)] && names == [false, false, true, false, false]
      | .neg => demands == [(true, false)] && names == [false, false, false, true, false]
      | .not => demands == [(true, false)] && names == [false, false, false, false, true]
      | _ => (demands == [(true, false), (true, false)] ||
          demands == [(true, false), (false, true)]) &&
        names == [false, false, false, false, false] &&
        (wvmBinaryOpcode opcode).isSome && wvmBinaryOf desc.mnemonic == wvmBinaryOpcode opcode
  | _, _ => false

/-- Every stock pattern of the virtual machines emits bytecode for its operands. -/
theorem mdsCreateSelector_emits (kind : MDSTargetKind) :
    ∀ pattern ∈ (mdsCreateSelector (mdsLoadMachine kind)).patterns,
      wvmPatternEmits (mdsLoadMachine kind) pattern = true := by
  cases kind <;> decide

/-- What the name and the operands of a selected instruction are, opcode by opcode. -/
inductive WVMSelected (name : String) (inst : MALInst) : Prop where
  | move {source : MALOperand} (opcode : inst.opcode = .copy) (operands : inst.operands = [source])
      (register : source.isReg = true) (named : wvmNamed name "mov.rr" = true)
  | moveImm {source : MALOperand} (opcode : inst.opcode = .copy)
      (operands : inst.operands = [source]) (immediate : mdsIsImmediate source = true)
      (other : wvmNamed name "mov.rr" = false) (named : wvmNamed name "mov.ri" = true)
  | ret {source : MALOperand} (opcode : inst.opcode = .ret) (operands : inst.operands = [source])
      (register : source.isReg = true) (others : wvmNamed name "mov.rr" = false ∧
        wvmNamed name "mov.ri" = false) (named : wvmNamed name "ret" = true)
  | unary {source : MALOperand} (opcode : inst.opcode = .neg ∨ inst.opcode = .not)
      (operands : inst.operands = [source]) (register : source.isReg = true)
      (others : wvmNamed name "mov.rr" = false ∧ wvmNamed name "mov.ri" = false ∧
        wvmNamed name "ret" = false)
      (named : wvmNamed name "neg" = decide (inst.opcode = .neg) ∧
        wvmNamed name "not" = decide (inst.opcode = .not))
  | binary {lhs rhs : MALOperand} (opcode : inst.opcode ≠ .ret)
      (operands : inst.operands = [lhs, rhs])
      (register : lhs.isReg = true) (either : rhs.isReg = true ∨ mdsIsImmediate rhs = true)
      (others : wvmNamed name "mov.rr" = false ∧ wvmNamed name "mov.ri" = false ∧
        wvmNamed name "ret" = false ∧ wvmNamed name "neg" = false ∧ wvmNamed name "not" = false)
      {op : WVMOpcode} (named : wvmBinaryOf name = some op)
      (meant : wvmBinaryOpcode inst.opcode = some op)

/-- An operand has the kind that is demanded of it. -/
def DemandMet (demand : Bool × Bool) (operand : MALOperand) : Prop :=
  (demand.1 = true → operand.isReg = true) ∧ (demand.2 = true → mdsIsImmediate operand = true)

/-- Operands that match the constraints of a pattern have the kinds that it demands. -/
theorem demands_met {expected : List MDSOperandConstraint} {operands : List MALOperand}
    (count : expected.length = operands.length)
    (met : (expected.zip operands).all
      (fun pair => mdsMatchOperandConstraint pair.1 pair.2) = true) :
    List.Forall₂ DemandMet (expected.map fun demand => (demand.mustBeReg, demand.mustBeImm))
      operands := by
  -- Induction on the constraints, each of which looks at one operand.
  induction expected generalizing operands with
  | nil =>
    obtain rfl := List.length_eq_zero_iff.mp count.symm
    exact .nil
  | cons demand expected ih =>
    cases operands with
    | nil => cases count
    | cons operand operands =>
      simp only [List.zip_cons_cons, List.all_cons, Bool.and_eq_true] at met
      refine .cons ?_ (ih (Nat.succ.inj count) met.2)
      -- The constraint asks for a register or an immediate where the pattern says so.
      have here := met.1
      simp only [mdsMatchOperandConstraint, Bool.and_eq_true, Bool.or_eq_true,
        Bool.not_eq_true'] at here
      obtain ⟨⟨⟨-, register⟩, immediate⟩, -⟩ := here
      refine ⟨fun must => register.resolve_left ?_, fun must => immediate.resolve_left ?_⟩
      · simpa using must
      · simpa using must

/-- One operand meets a single demand. -/
theorem forall₂_single {demand : Bool × Bool} {operands : List MALOperand}
    (met : List.Forall₂ DemandMet [demand] operands) :
    ∃ source, operands = [source] ∧ DemandMet demand source := by
  cases met with
  | cons head tail =>
    cases tail
    exact ⟨_, rfl, head⟩

/-- Two operands meet two demands. -/
theorem forall₂_pair {demand demand' : Bool × Bool} {operands : List MALOperand}
    (met : List.Forall₂ DemandMet [demand, demand'] operands) :
    ∃ lhs rhs, operands = [lhs, rhs] ∧ DemandMet demand lhs ∧ DemandMet demand' rhs := by
  cases met with
  | cons head tail =>
    -- The second operand meets the demand that is left.
    obtain ⟨rhs, rfl, last⟩ := forall₂_single tail
    exact ⟨_, rhs, rfl, head, last⟩

/-- A pattern that fits and matches an instruction selects a name for it. -/
theorem wvmSelected_of_emits {machine : MDSMachine} {pattern : MDSPattern} {inst : MALInst}
    {desc : MDSInstruction} (emits : wvmPatternEmits machine pattern = true)
    (found : mdsPatternMatchesInst pattern inst = true)
    (emitted : (pattern.emitInstrs.head?.bind fun id => machine.instrById[id]?) = some desc) :
    desc.operands.head?.map (·.isOutput) = some (inst.opcode != .ret) ∧
      WVMSelected desc.mnemonic inst := by
  unfold wvmPatternEmits at emits
  unfold mdsPatternMatchesInst at found
  rw [emitted] at emits
  cases root : pattern.root with
  | none => simp [root] at found
  | some pair =>
    obtain ⟨opcode, expected⟩ := pair
    simp only [root, Bool.and_eq_true, beq_iff_eq] at found emits
    -- As many operands as constraints, each of the kind that its constraint demands.
    obtain ⟨⟨rfl, count⟩, met⟩ := found
    have kinds := demands_met count met
    refine ⟨emits.1, ?_⟩
    have names := emits.2
    have single : ∀ {demand : Bool × Bool},
        expected.map (fun demand => (demand.mustBeReg, demand.mustBeImm)) = [demand] →
        ∃ source, inst.operands = [source] ∧ DemandMet demand source := by
      intro demand same
      exact forall₂_single (same ▸ kinds)
    split at names
    · rename_i copies
      -- A copy of a register and one of an immediate have patterns of their own.
      simp only [Bool.or_eq_true, Bool.and_eq_true, beq_iff_eq, List.map_cons, List.map_nil,
        List.cons.injEq] at names
      rcases names with ⟨demands, first, -⟩ | ⟨demands, first, second, -⟩
      · obtain ⟨source, operands, register, -⟩ := single demands
        exact .move copies operands (register rfl) first
      · obtain ⟨source, operands, -, immediate⟩ := single demands
        exact .moveImm copies operands (immediate rfl) first second
    · rename_i returns
      simp only [Bool.and_eq_true, beq_iff_eq, List.map_cons, List.map_nil,
        List.cons.injEq] at names
      obtain ⟨demands, first, second, third, -⟩ := names
      -- A return hands over one register.
      obtain ⟨source, operands, register, -⟩ := single demands
      exact .ret returns operands (register rfl) ⟨first, second⟩ third
    · rename_i negates
      simp only [Bool.and_eq_true, beq_iff_eq, List.map_cons, List.map_nil,
        List.cons.injEq] at names
      obtain ⟨demands, first, second, third, fourth, fifth, -⟩ := names
      -- A negation and an inversion read one register.
      obtain ⟨source, operands, register, -⟩ := single demands
      refine .unary (.inl negates) operands (register rfl) ⟨first, second, third⟩ ?_
      rw [fourth, fifth, negates]
      decide
    · rename_i inverts
      simp only [Bool.and_eq_true, beq_iff_eq, List.map_cons, List.map_nil,
        List.cons.injEq] at names
      obtain ⟨demands, first, second, third, fourth, fifth, -⟩ := names
      obtain ⟨source, operands, register, -⟩ := single demands
      refine .unary (.inr inverts) operands (register rfl) ⟨first, second, third⟩ ?_
      rw [fourth, fifth, inverts]
      decide
    · rename_i _ other _ _
      simp only [Bool.and_eq_true, Bool.or_eq_true, beq_iff_eq, List.map_cons, List.map_nil,
        List.cons.injEq] at names
      obtain ⟨⟨⟨demands, first, second, third, fourth, fifth, -⟩, some⟩, same⟩ := names
      obtain ⟨op, meant⟩ := Option.isSome_iff_exists.mp some
      -- A binary operation reads a register first, and a register or an immediate second.
      have pair : ∃ lhs rhs, inst.operands = [lhs, rhs] ∧ lhs.isReg = true ∧
          (rhs.isReg = true ∨ mdsIsImmediate rhs = true) := by
        rcases demands with demands | demands
        · obtain ⟨lhs, rhs, operands, left, right⟩ := forall₂_pair (demands ▸ kinds)
          exact ⟨lhs, rhs, operands, left.1 rfl, .inl (right.1 rfl)⟩
        · obtain ⟨lhs, rhs, operands, left, right⟩ := forall₂_pair (demands ▸ kinds)
          exact ⟨lhs, rhs, operands, left.1 rfl, .inr (right.2 rfl)⟩
      obtain ⟨lhs, rhs, operands, register, either⟩ := pair
      exact .binary other operands register either ⟨first, second, third, fourth, fifth⟩
        (same.trans meant) meant

/-- Bytecode is appended, and the registers stay as they are. -/
structure Appends (builder : WVMEncodeBuilder) (words : List (BitVec 64))
    (builder' : WVMEncodeBuilder) : Prop where
  instrs : builder'.instrs = builder.instrs ++ words
  scratchReg : builder'.scratchReg = builder.scratchReg
  regCount : builder'.regCount = builder.regCount
  room : builder.instrs.length ≤ wvmBuilderCapacity →
    builder'.instrs.length ≤ wvmBuilderCapacity

/-- Nothing is appended by doing nothing. -/
theorem Appends.refl (builder : WVMEncodeBuilder) : Appends builder [] builder :=
  ⟨(List.append_nil _).symm, rfl, rfl, id⟩

/-- Bytecode appended twice is appended as a whole. -/
theorem Appends.trans {builder builder' builder'' : WVMEncodeBuilder}
    {words words' : List (BitVec 64)} (first : Appends builder words builder')
    (second : Appends builder' words' builder'') :
    Appends builder (words ++ words') builder'' where
  instrs := by rw [second.instrs, first.instrs, List.append_assoc]
  scratchReg := second.scratchReg.trans first.scratchReg
  regCount := second.regCount.trans first.regCount
  room start := second.room (first.room start)

/-- An instruction that the builder took was appended. -/
theorem wvmBuilderAppendInstr_some {builder builder' : WVMEncodeBuilder} {word : BitVec 64}
    (appended : wvmBuilderAppendInstr builder word = some builder') :
    Appends builder [word] builder' := by
  -- The array grows by one place at most.
  unfold wvmBuilderAppendInstr at appended
  split at appended
  · rename_i inside
    obtain rfl := Option.some.inj appended
    refine ⟨rfl, rfl, rfl, fun _ => ?_⟩
    rw [List.length_append]
    exact inside
  · cases appended

/-- A register is used as it is. -/
theorem wvmOperandToReg_reg (builder : WVMEncodeBuilder) {operand : MALOperand}
    {source : BitVec 32} (register : operand.payload = .reg source) :
    wvmOperandToReg builder operand = some (builder, source.setWidth 16) := by
  rw [wvmOperandToReg, register]

/-- An immediate is loaded into the scratch register. -/
theorem wvmOperandToReg_imm {builder builder' : WVMEncodeBuilder} {operand : MALOperand}
    {reg : BitVec 16} (immediate : mdsIsImmediate operand = true)
    (loaded : wvmOperandToReg builder operand = some (builder', reg)) :
    reg = builder.scratchReg ∧ ∃ load, LoadsImm builder.scratchReg operand.payload load ∧
      Appends builder [load] builder' := by
  -- Both ways through the constants append one constant and one instruction.
  have pooled : ∀ value, ((wvmBuilderAppendConst builder value).bind fun pooled =>
      (wvmBuilderAppendInstr pooled.1
          (wvmEncodeOpRConst .loadConst builder.scratchReg pooled.2)).bind
        fun done => some (done, builder.scratchReg)) = some (builder', reg) →
      reg = builder.scratchReg ∧ ∃ index, Appends builder
        [wvmEncodeOpRConst .loadConst builder.scratchReg index] builder' := by
    intro value done
    -- The constant and the instruction are appended one after the other.
    simp only [Option.bind_eq_some_iff, Option.some.injEq, Prod.mk.injEq] at done
    obtain ⟨⟨middle, index⟩, constant, final, appended, rfl, rfl⟩ := done
    refine ⟨rfl, index, ?_⟩
    have grown := wvmBuilderAppendInstr_some appended
    unfold wvmBuilderAppendConst at constant
    split at constant
    · obtain ⟨rfl, -⟩ := Prod.mk.inj (Option.some.inj constant)
      exact ⟨grown.instrs, grown.scratchReg, grown.regCount, grown.room⟩
    · cases constant
  unfold wvmOperandToReg at loaded
  unfold mdsIsImmediate at immediate
  cases payload : operand.payload with
  | immInt value =>
    simp only [payload] at loaded
    -- A small immediate is part of the instruction, any other one is a constant of the pool.
    split at loaded
    · rename_i fits
      simp only [Option.bind_eq_bind, Option.bind_eq_some_iff, Option.pure_def, Option.some.injEq,
        Prod.mk.injEq] at loaded
      obtain ⟨final, appended, rfl, rfl⟩ := loaded
      exact ⟨rfl, _, .small value fits, wvmBuilderAppendInstr_some appended⟩
    · rename_i large
      obtain ⟨same, index, appended⟩ := pooled _ loaded
      exact ⟨same, _, .wide value large index, appended⟩
  | immFloat value =>
    simp only [payload] at loaded
    obtain ⟨same, index, appended⟩ := pooled _ loaded
    exact ⟨same, _, .float value index, appended⟩
  | _ => simp [payload] at immediate

/-- The operands of a selected instruction are in registers after the loads. -/
theorem wvmOperandToReg_either {builder builder' : WVMEncodeBuilder} {lhs rhs : MALOperand}
    {reg : BitVec 16} {source : BitVec 32} (first : lhs.payload = .reg source)
    (either : rhs.isReg = true ∨ mdsIsImmediate rhs = true)
    (loaded : wvmOperandToReg builder rhs = some (builder', reg)) :
    ∃ loads, Loaded builder.scratchReg ([lhs, rhs].map (·.payload)) loads
      [source.setWidth 16, reg] ∧ Appends builder loads builder' := by
  -- The second operand is a register, or an immediate that is loaded into the scratch register.
  rcases either with register | immediate
  · obtain ⟨other, payload⟩ := MALOperand.isReg_cases register
    rw [wvmOperandToReg_reg builder payload] at loaded
    obtain ⟨rfl, rfl⟩ := Prod.mk.inj (Option.some.inj loaded)
    refine ⟨[], ?_, .refl builder⟩
    rw [List.map_cons, List.map_singleton, first, payload]
    exact .regs source other
  · obtain ⟨rfl, load, loads, appended⟩ := wvmOperandToReg_imm immediate loaded
    refine ⟨[load], ?_, appended⟩
    rw [List.map_cons, List.map_singleton, first]
    exact .regImm source loads

/-- A return has no destination, and others have one unless it is invalid. -/
theorem mdsDestination_eq {inst : MALInst} {desc : MDSInstruction}
    (output : desc.operands.head?.map (·.isOutput) = some (inst.opcode != .ret)) :
    mdsDestination desc inst = if inst.opcode = .ret ∨ inst.dst = malInvalidReg then []
      else [malOperandReg inst.dst inst.type] := by
  unfold mdsDestination
  cases descs : desc.operands with
  | nil => simp [descs] at output
  | cons first rest =>
    -- The description marks its first operand as written, unless it is a return.
    have isOutput : first.isOutput = (inst.opcode != .ret) := by simpa [descs] using output
    simp only [isOutput]
    by_cases returns : inst.opcode = .ret
    · simp [returns]
    · by_cases invalid : inst.dst = malInvalidReg <;> simp [returns, invalid]

/-- Whatever a selected instruction is emitted as, it has a destination unless it returns. -/
theorem wvmEmitFromMnemonic_selected {inst : MALInst} {desc : MDSInstruction}
    (output : desc.operands.head?.map (·.isOutput) = some (inst.opcode != .ret))
    (selected : WVMSelected desc.mnemonic inst) {line : TOSInst} (described : line.desc = some desc)
    (operands : line.operands = mdsDestination desc inst ++ inst.operands)
    {builder builder' : WVMEncodeBuilder}
    (emitted : wvmEmitFromMnemonic builder line = some builder') :
    (inst.opcode ≠ .ret → inst.dst ≠ malInvalidReg) ∧
      ∃ words, WVMEmits builder.scratchReg inst words ∧ Appends builder words builder' := by
  -- The cases are those of the selection, which decide the branch of the encoder.
  have destination := mdsDestination_eq output
  have dst : (BitVec.ofNat 32 inst.dst).setWidth 16 = BitVec.ofNat 16 inst.dst :=
    BitVec.setWidth_ofNat_of_le (by omega) _
  simp only [wvmEmitFromMnemonic, described, Option.bind_eq_bind, Option.bind_some, operands,
    destination] at emitted
  cases selected with
  | @move source opcode inputs register named =>
    -- A copy of a register is a move.
    obtain ⟨reg, payload⟩ := MALOperand.isReg_cases register
    by_cases invalid : inst.dst = malInvalidReg
    · simp [named, inputs, opcode, invalid] at emitted
    · simp only [named, inputs, opcode, invalid, reduceCtorEq, or_self, if_true, if_false,
        List.cons_append, List.nil_append, malOperandReg, wvmOperandToReg_reg _ payload,
        Option.bind_some, dst] at emitted
      have single := Loaded.single builder.scratchReg inputs payload
      have line : wvmMain inst.opcode (BitVec.ofNat 16 inst.dst) [reg.setWidth 16] =
          some (wvmEncodeOpRr .move (BitVec.ofNat 16 inst.dst) (reg.setWidth 16)) := by
        rw [opcode]
        rfl
      exact ⟨fun _ => invalid, _, .line single line, wvmBuilderAppendInstr_some emitted⟩
  | @moveImm source opcode inputs immediate other named =>
    by_cases invalid : inst.dst = malInvalidReg
    · simp [other, named, inputs, opcode, invalid] at emitted
    · simp only [other, named, inputs, opcode, invalid, reduceCtorEq, or_self, if_true, if_false,
        List.cons_append, List.nil_append, malOperandReg, Bool.false_eq_true,
        Option.bind_eq_some_iff, dst] at emitted
      -- A copy of an immediate is loaded, and moved unless it is in place already.
      obtain ⟨⟨loadedBuilder, reg⟩, loaded, moved⟩ := emitted
      obtain ⟨rfl, load, loads, appended⟩ := wvmOperandToReg_imm immediate loaded
      refine ⟨fun _ => invalid, ?_⟩
      have operand : inst.operands.map (·.payload) = [source.payload] := by
        rw [inputs, List.map_singleton]
      simp only at moved
      split at moved
      · rename_i same
        obtain rfl := Option.some.inj moved
        exact ⟨_, .here opcode operand loads same, appended⟩
      · have line : wvmMain inst.opcode (BitVec.ofNat 16 inst.dst) [builder.scratchReg] =
            some (wvmEncodeOpRr .move (BitVec.ofNat 16 inst.dst) builder.scratchReg) := by
          rw [opcode]
          rfl
        exact ⟨_, .line (operand ▸ .imm loads) line,
          appended.trans (wvmBuilderAppendInstr_some moved)⟩
  | @ret source opcode inputs register others named =>
    obtain ⟨reg, payload⟩ := MALOperand.isReg_cases register
    simp only [others, named, inputs, opcode, true_or, if_true, if_false, List.nil_append,
      Bool.false_eq_true, wvmOperandToReg_reg _ payload, Option.bind_some] at emitted
    -- A return has no destination to be missed.
    have single := Loaded.single builder.scratchReg inputs payload
    have line : wvmMain inst.opcode (BitVec.ofNat 16 inst.dst) [reg.setWidth 16] =
        some (wvmEncodeOpR .return (reg.setWidth 16)) := by
      rw [opcode]
      rfl
    exact ⟨fun other => absurd opcode other, _, .line single line,
      wvmBuilderAppendInstr_some emitted⟩
  | @unary source opcode inputs register others named =>
    obtain ⟨reg, payload⟩ := MALOperand.isReg_cases register
    have notRet : inst.opcode ≠ .ret := by
      rcases opcode with same | same <;> simp [same]
    by_cases invalid : inst.dst = malInvalidReg
    · simp [others, inputs, invalid] at emitted
    · simp only [others, inputs, notRet, invalid, or_self, if_false, malOperandReg,
        List.cons_append, List.nil_append, Bool.false_eq_true, wvmOperandToReg_reg _ payload,
        Option.bind_some, dst] at emitted
      -- Negation and inversion write the destination from one register.
      have single := Loaded.single builder.scratchReg inputs payload
      refine ⟨fun _ => invalid, ?_⟩
      rcases opcode with same | same
      · simp only [named.1, same, decide_true, if_true] at emitted
        exact ⟨_, .line single (by rw [same]; rfl), wvmBuilderAppendInstr_some emitted⟩
      · simp only [named, same, reduceCtorEq, decide_false, decide_true, Bool.false_eq_true,
          if_false, if_true] at emitted
        exact ⟨_, .line single (by rw [same]; rfl), wvmBuilderAppendInstr_some emitted⟩
  | @binary lhs rhs notRet inputs register either others op named meant =>
    obtain ⟨reg, payload⟩ := MALOperand.isReg_cases register
    by_cases invalid : inst.dst = malInvalidReg
    · -- Without a destination there is one operand too few.
      obtain ⟨type, content⟩ := lhs
      obtain rfl : content = .reg reg := payload
      simp [others, inputs, invalid] at emitted
    · simp only [others, inputs, notRet, invalid, or_self, if_false, malOperandReg,
        List.cons_append, List.nil_append, Bool.false_eq_true, wvmOperandToReg_reg _ payload,
        Option.bind_some, dst, named, Option.bind_eq_some_iff] at emitted
      obtain ⟨⟨middle, second⟩, loaded, appended⟩ := emitted
      -- The right operand is loaded first, and the operation comes last.
      obtain ⟨loads, both, grown⟩ := wvmOperandToReg_either payload either loaded
      have line : wvmMain inst.opcode (BitVec.ofNat 16 inst.dst) [reg.setWidth 16, second] =
          some (wvmEncodeOpRrr op (BitVec.ofNat 16 inst.dst) (reg.setWidth 16) second) := by
        rw [wvmMain, meant]
        rfl
      exact ⟨fun _ => invalid, _, .line (inputs ▸ both) line,
        grown.trans (wvmBuilderAppendInstr_some appended)⟩

/-- What has been selected for a source instruction. -/
theorem mdsBuildSelectedInst_selected {kind : MDSTargetKind} {inst : MALInst} {out : MDSInst}
    (built : mdsBuildSelectedInst (mdsCreateSelector (mdsLoadMachine kind)) inst = some out) :
    ∃ desc, out.desc = some desc ∧ out.operands = mdsDestination desc inst ++ inst.operands ∧
      desc.operands.head?.map (·.isOutput) = some (inst.opcode != .ret) ∧
        WVMSelected desc.mnemonic inst := by
  unfold mdsBuildSelectedInst at built
  simp only [Option.bind_eq_bind, Option.bind_eq_some_iff, Option.pure_def,
    Option.some.injEq] at built
  -- The selector found a pattern, whose description names the instruction.
  obtain ⟨pattern, best, desc, described, rfl⟩ := built
  obtain ⟨member, found⟩ := mdsSelectBestPattern_some best
  rw [mdsDescFromPattern, mdsCreateSelector_machine] at described
  exact ⟨desc, rfl, rfl,
    wvmSelected_of_emits (mdsCreateSelector_emits kind pattern member) found described⟩

/-- What an instruction of a stream is emitted as, if it has been selected for a source
instruction. -/
theorem wvmEmitFromMnemonic_built {kind : MDSTargetKind} {inst : MALInst} {line : TOSInst}
    (built : mdsBuildSelectedInst (mdsCreateSelector (mdsLoadMachine kind)) inst =
      some ⟨line.desc, line.operands⟩) {builder builder' : WVMEncodeBuilder}
    (emitted : wvmEmitFromMnemonic builder line = some builder') :
    (inst.opcode ≠ .ret → inst.dst ≠ malInvalidReg) ∧
      ∃ words, WVMEmits builder.scratchReg inst words ∧ Appends builder words builder' := by
  obtain ⟨desc, described, operands, output, selected⟩ := mdsBuildSelectedInst_selected built
  exact wvmEmitFromMnemonic_selected output selected described operands emitted

end Wirble
