import Wirble.Mds.Decodable

/-! Which selected instructions conform to their descriptors. -/

namespace Wirble

/-- An instruction has one operand for each operand of its descriptor, of its kind, and the
destination of the source instruction where the descriptor starts with an output. -/
structure InstConforms (inst : MALInst) (out : MDSInst) (desc : MDSInstruction) : Prop where
  described : out.desc = some desc
  count : out.operands.length = desc.operands.length
  destination : ∀ first ∈ desc.operands.head?, first.isOutput = true →
    out.operands.head? = some (malOperandReg inst.dst inst.type)
  kinds : List.Forall₂ OperandShaped desc.operands out.operands

/-- Every selected instruction conforms to its descriptor. -/
def ProgramConforms (module : MALModule) (program : MDSProgram) : Prop :=
  List.Forall₂ (fun inst out => ∃ desc, InstConforms inst out desc)
    (module.functions.flatMap (·.insts)) program.insts

section Conforms

variable {machine : MDSMachine} {inst : MALInst} {out : MDSInst} {desc : MDSInstruction}

/-- There is a destination to prepend, and a place for it. -/
theorem mdsDestination_of_output {first : MDSOperandDesc} {rest : List MDSOperandDesc}
    (operands : desc.operands = first :: rest) (output : first.isOutput = true)
    (present : inst.dst ≠ malInvalidReg) :
    mdsDestination desc inst = [malOperandReg inst.dst inst.type] := by
  rw [mdsDestination, operands]
  simp only [if_neg present, output, if_true]

/-- Without a destination nothing is prepended. -/
theorem mdsDestination_of_none (missing : inst.dst = malInvalidReg) :
    mdsDestination desc inst = [] := by
  rw [mdsDestination]
  split
  · rfl
  · rw [if_pos missing]

/-- A selected instruction conforms exactly if it has a destination or is a return. -/
theorem selected_conforms_iff (selected : SelectedBy machine inst out desc) :
    InstConforms inst out desc ↔ (inst.opcode ≠ .ret → inst.dst ≠ malInvalidReg) := by
  have inputs := selected.inputs
  have returns := selected.returns
  have register := selected.register
  unfold MDSInstruction.inputs at inputs
  cases operands : desc.operands with
  -- A descriptor without operands is a return without inputs.
  | nil =>
    rw [operands] at inputs returns
    have isReturn : inst.opcode = .ret := returns.mpr rfl
    have none_left : out.operands = [] := by
      rw [selected.operands, mdsDestination, operands, List.nil_append]
      exact List.forall₂_nil_left_iff.mp inputs
    refine iff_of_true ⟨selected.described, ?_, ?_, ?_⟩ fun other => absurd isReturn other
    · rw [none_left, operands]
      rfl
    · rw [operands]
      exact nofun
    · rw [none_left, operands]
      exact .nil
  | cons first rest =>
    simp only [operands, List.head?_cons, Option.map_some, Option.getD_some] at returns register
    rw [operands] at inputs
    cases output : first.isOutput with
    | false =>
      -- A return has inputs only.
      have isReturn : inst.opcode = .ret := returns.mpr output
      have same : out.operands = inst.operands := by
        rw [selected.operands, mdsDestination, operands]
        simp only [output, Bool.false_eq_true, if_false]
        split <;> rfl
      simp only [output, Bool.false_eq_true, if_false] at inputs
      refine iff_of_true ⟨selected.described, ?_, ?_, ?_⟩ fun other => absurd isReturn other
      · rw [same, operands]
        exact inputs.length_eq.symm
      · intro head place isOutput
        rw [operands] at place
        obtain rfl := Option.some.inj place
        rw [output] at isOutput
        cases isOutput
      · rw [same, operands]
        exact inputs
    | true =>
      -- An output means that it is no return.
      have notReturn : inst.opcode ≠ .ret := by
        intro isReturn
        rw [returns.mp isReturn] at output
        cases output
      simp only [output, if_true] at inputs
      constructor
      · intro conforms _ missing
        -- One operand is missing.
        have count := conforms.count
        rw [selected.operands, mdsDestination_of_none missing, operands, List.nil_append,
          List.length_cons, ← inputs.length_eq] at count
        omega
      · intro aligned
        have prepended : out.operands = malOperandReg inst.dst inst.type :: inst.operands := by
          rw [selected.operands, mdsDestination_of_output operands output (aligned notReturn)]
          rfl
        -- The destination is a register, as an output demands.
        have shaped : OperandShaped first (malOperandReg inst.dst inst.type) := by
          rw [OperandShaped, register output]
          rfl
        refine ⟨selected.described, ?_, ?_, ?_⟩
        · rw [prepended, operands, List.length_cons, List.length_cons, inputs.length_eq]
        · intro head place isOutput
          rw [prepended]
          rfl
        · rw [prepended, operands]
          exact .cons shaped inputs

/-- A program that is selected with the built-in patterns of a target conforms to its descriptors
exactly if every instruction of the module other than a return has a destination. -/
theorem mdsLowerFromMAL_conforms_iff (kind : MDSTargetKind) (module : MALModule)
    (selector : Option MDSInstrSelector) (program : MDSProgram)
    (builtin : selector.getD (mdsCreateSelector (mdsLoadMachine kind)) =
      mdsCreateSelector (mdsLoadMachine kind))
    (lowered : mdsLowerFromMAL module selector (mdsLoadMachine kind) = some program) :
    ProgramConforms module program ↔ module.Aligned := by
  have selected := mdsLowerFromMAL_selected lowered
  rw [builtin] at selected
  -- The condition on the functions is one on all their instructions.
  have aligned : module.Aligned ↔ ∀ inst ∈ module.functions.flatMap (·.insts),
      inst.opcode ≠ .ret → inst.dst ≠ malInvalidReg := by
    rw [MALModule.Aligned]
    simp only [List.mem_flatMap, forall_exists_index, and_imp]
    constructor
    · intro all inst fn member place
      exact all fn member inst place
    · intro all fn member inst place
      exact all inst fn member place
  rw [aligned, ProgramConforms]
  clear aligned lowered
  generalize module.functions.flatMap (·.insts) = insts at selected ⊢
  generalize program.insts = outs at selected ⊢
  -- Instruction by instruction.
  induction selected with
  | nil => exact iff_of_true .nil nofun
  | @cons inst out insts outs built others ih =>
    obtain ⟨desc, selected⟩ := mdsBuildSelectedInst_selectedBy built
    rw [List.forall₂_cons, List.forall_mem_cons]
    -- The descriptor is that of the selection.
    have one : (∃ desc, InstConforms inst out desc) ↔
        (inst.opcode ≠ .ret → inst.dst ≠ malInvalidReg) := by
      rw [← selected_conforms_iff selected]
      constructor
      · intro ⟨desc', conforms⟩
        have same : desc' = desc := Option.some.inj (conforms.described.symm.trans selected.described)
        rw [← same]
        exact conforms
      · intro conforms
        exact ⟨desc, conforms⟩
    exact and_congr one ih

end Conforms

/-- A module of one addition with the given destination. -/
def malOneAddition (dst : Nat) : MALModule where
  functions := [{
    name := "f", retType := .i32, paramTypes := [], paramCount := 0, nextSSAReg := 2
    blocks := [⟨0, [⟨0, .add, .i32, dst, [malOperandReg 0 .i32, malOperandReg 1 .i32]⟩], [], []⟩] }]
  targetTriple := none

/-- An addition with a destination conforms. -/
theorem mdsLowerFromMAL_conforms_addition :
    ∃ program, mdsLowerFromMAL (malOneAddition 2) none (mdsLoadMachine .x86_64) = some program ∧
      ProgramConforms (malOneAddition 2) program := by
  have lowered : (mdsLowerFromMAL (malOneAddition 2) none (mdsLoadMachine .x86_64)).isSome =
      true := by
    decide
  -- The addition is lowered as it stands, and its operands are aligned.
  obtain ⟨program, some_⟩ := Option.isSome_iff_exists.mp lowered
  refine ⟨program, some_,
    (mdsLowerFromMAL_conforms_iff .x86_64 (malOneAddition 2) none program rfl some_).mpr ?_⟩
  unfold MALModule.Aligned
  decide

/-- An addition without a destination has one operand too few. -/
theorem mdsLowerFromMAL_not_conforms :
    ¬ ∀ (kind : MDSTargetKind) (module : MALModule) (selector : Option MDSInstrSelector)
      (program : MDSProgram), selector.getD (mdsCreateSelector (mdsLoadMachine kind)) =
        mdsCreateSelector (mdsLoadMachine kind) →
      mdsLowerFromMAL module selector (mdsLoadMachine kind) = some program →
      ProgramConforms module program := by
  intro claimed
  have lowered : (mdsLowerFromMAL (malOneAddition malInvalidReg) none
      (mdsLoadMachine .x86_64)).isSome = true := by
    decide
  obtain ⟨program, some_⟩ := Option.isSome_iff_exists.mp lowered
  have conforms := claimed .x86_64 (malOneAddition malInvalidReg) none program rfl some_
  have selected := mdsLowerFromMAL_selected some_
  -- There is only one instruction.
  let addition : MALInst :=
    ⟨0, .add, .i32, malInvalidReg, [malOperandReg 0 .i32, malOperandReg 1 .i32]⟩
  have single : (malOneAddition malInvalidReg).functions.flatMap (·.insts) = [addition] := rfl
  rw [single] at selected
  rw [ProgramConforms, single] at conforms
  obtain ⟨out, rest, built, -, outs⟩ := List.forall₂_cons_left_iff.mp selected
  rw [outs] at conforms
  obtain ⟨⟨desc, one⟩, -⟩ := List.forall₂_cons.mp conforms
  obtain ⟨desc', by_⟩ := mdsBuildSelectedInst_selectedBy built
  have same : desc = desc' := Option.some.inj (one.described.symm.trans by_.described)
  rw [same] at one
  exact (selected_conforms_iff by_).mp one (by decide) rfl

end Wirble
