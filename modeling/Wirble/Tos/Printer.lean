import Wirble.Frontend.Levels
import Wirble.Mds.Listing

/-! The text that a stream is printed as, which tells what bytecode it is encoded as. -/

namespace Wirble

section Print

variable (doubleText : DoubleBits → List Char)

/-- The line of a block, with its successors behind an arrow. -/
def tosPrintBlock (block : TOSBlock) : List Char :=
  "layout b".toList ++ Nat.toDigits 10 block.id ++
    if block.successors = [] then []
    else " -> ".toList ++ Listing.fields ',' [' ']
      (block.successors.map fun successor => 'b' :: Nat.toDigits 10 successor)

/-- The line of an instruction. -/
def tosPrintInst (inst : TOSInst) : List Char :=
  ' ' :: ' ' :: 't' :: (Nat.toDigits 10 inst.id ++ ':' :: ' ' ::
    mdsPrintInst doubleText mdsOperandFormat inst.desc inst.operands)

/-- The line of a program. -/
def tosPrintHeader (program : TOSProgram) : List Char :=
  "tos-program ".toList ++ mdsMachineName program.machine ++ " (".toList ++
    Nat.toDigits 10 program.blocks.length ++ " blocks, ".toList ++
    Nat.toDigits 10 program.instructions.length ++ " instructions, ".toList ++
    (if program.orderKind = .reversePostorder then "rpo)".toList else "input)".toList)

/-- `print_program_to_file`: a line for the program, each block and each instruction. -/
def tosPrintProgram (program : TOSProgram) : List Char :=
  Listing.lines '\n' (tosPrintHeader program ::
    Listing.sections tosPrintBlock
      (fun block => (tosBlockInsts program block).map (tosPrintInst doubleText)) program.blocks)

end Print

/-! Bytecode depends on what is listed. -/

section Emit

/-- The operand with its value only. -/
def MALOperand.untyped (operand : MALOperand) : MALOperand := { operand with type := .void }

/-- What is emitted does not depend on the types of operands. -/
theorem wvmEmitFromMnemonic_untyped (inst : TOSInst) (builder : WVMEncodeBuilder) :
    wvmEmitFromMnemonic builder { inst with operands := inst.operands.map MALOperand.untyped } =
      wvmEmitFromMnemonic builder inst := by
  obtain ⟨id, blockId, order, desc, operands⟩ := inst
  -- Only the first operands are looked at, and of the first one whether it is a register.
  rcases operands with _ | ⟨⟨type, payload⟩, _ | ⟨second, _ | ⟨third, rest⟩⟩⟩
  · rfl
  all_goals cases payload <;> rfl

/-- Instructions that are listed alike are emitted alike. -/
theorem wvmEmitFromMnemonic_listed {inst inst' : TOSInst}
    (same : MDSSameListed inst.desc inst'.desc inst.operands inst'.operands)
    (builder : WVMEncodeBuilder) :
    wvmEmitFromMnemonic builder inst = wvmEmitFromMnemonic builder inst' := by
  obtain ⟨names, payloads⟩ := same
  have untyped : inst.operands.map MALOperand.untyped = inst'.operands.map MALOperand.untyped := by
    have values : ∀ operands : List MALOperand, operands.map MALOperand.untyped =
        (operands.map (·.payload)).map (MALOperand.mk .void) := by
      intro operands
      rw [List.map_map]
      rfl
    rw [values, values, payloads]
  rw [← wvmEmitFromMnemonic_untyped inst, ← wvmEmitFromMnemonic_untyped inst', untyped]
  unfold wvmEmitFromMnemonic
  -- Of the descriptor only the name is looked at.
  cases desc : inst.desc with
  | none =>
    cases desc' : inst'.desc with
    | none => rfl
    | some descriptor' =>
      rw [desc, desc'] at names
      cases names
  | some descriptor =>
    cases desc' : inst'.desc with
    | none =>
      rw [desc, desc'] at names
      cases names
    -- The names are the same, and so is all that depends on them.
    | some descriptor' =>
      rw [desc, desc'] at names
      have name : descriptor.mnemonic = descriptor'.mnemonic := Option.some.inj names
      simp only [Option.bind_eq_bind, Option.bind_some, name]

/-- Streams that are listed alike. -/
def TOSSameListed (insts insts' : List TOSInst) : Prop :=
  List.Forall₂ (fun inst inst' => MDSSameListed inst.desc inst'.desc inst.operands inst'.operands)
    insts insts'

/-- Listings that agree show the same operands. -/
theorem TOSSameListed.operands {insts insts' : List TOSInst} (same : TOSSameListed insts insts') :
    (insts.flatMap (·.operands)).map (·.payload) =
      (insts'.flatMap (·.operands)).map (·.payload) := by
  -- Induction on the streams, instruction by instruction.
  induction same with
  | nil => rfl
  | cons first _ ih =>
    rw [List.flatMap_cons, List.flatMap_cons, List.map_append, List.map_append, first.2, ih]

/-- Listings that agree emit the same bytecode. -/
theorem TOSSameListed.emitted {insts insts' : List TOSInst} (same : TOSSameListed insts insts') :
    ∀ builder, insts.foldlM wvmEmitFromMnemonic builder =
      insts'.foldlM wvmEmitFromMnemonic builder := by
  induction same with
  | nil => exact fun _ => rfl
  | cons first _ ih =>
    intro builder
    rw [List.foldlM_cons, List.foldlM_cons, wvmEmitFromMnemonic_listed first]
    exact congrArg _ (funext ih)

/-- Streams that are listed alike are encoded alike. -/
theorem wvmPrototypeFromTOS_listed {a b : TOSProgram}
    (same : TOSSameListed a.instructions b.instructions) (name source : Option CString) :
    wvmPrototypeFromTOS a name source = wvmPrototypeFromTOS b name source := by
  -- The largest register is that of the operands, which agree.
  have largest : wvmMaxReg a = wvmMaxReg b := by
    have values : ∀ program : TOSProgram, wvmMaxReg program =
        ((program.instructions.flatMap (·.operands)).map (·.payload)).foldl
          (fun largest payload => max largest ((MALOperand.mk .void payload).reg?.getD 0)) 0 := by
      intro program
      rw [List.foldl_map]
      rfl
    rw [values, values, same.operands]
  -- So both encodings start from the same builder.
  have start : wvmBuilderStart a = wvmBuilderStart b := by
    rw [wvmBuilderStart, wvmBuilderStart, wvmComputeRegCount, wvmComputeRegCount, largest]
  rw [wvmPrototypeFromTOS, wvmPrototypeFromTOS, start, same.emitted]

end Emit

/-! The lines of a stream. -/

section Lines

variable {doubleText : DoubleBits → List Char} {program program' : TOSProgram}

/-- The header has no line end. -/
theorem tosPrintHeader_plain (program : TOSProgram) : '\n' ∉ tosPrintHeader program := by
  -- The order is named by one of two words.
  have order : '\n' ∉ if program.orderKind = .reversePostorder then "rpo)".toList
      else "input)".toList := by
    split <;> decide +kernel
  intro member
  unfold tosPrintHeader at member
  rw [List.mem_append, List.mem_append, List.mem_append, List.mem_append, List.mem_append,
    List.mem_append, List.mem_append] at member
  -- Each part of the header is a word or a number.
  rcases member with (((((((first | name) | bracket) | blocks) | comma) | insts) | last) | ordered)
  · exact absurd first (by decide +kernel)
  · exact mdsMachineName_plain _ name
  · exact absurd bracket (by decide +kernel)
  · exact Listing.newline_toDigits _ blocks
  · exact absurd comma (by decide +kernel)
  · exact Listing.newline_toDigits _ insts
  · exact absurd last (by decide +kernel)
  · exact order ordered

/-- The line of a block is one line, and not indented. -/
theorem tosPrintBlock_plain (block : TOSBlock) :
    '\n' ∉ tosPrintBlock block ∧ isIndented (tosPrintBlock block) = false := by
  refine ⟨?_, rfl⟩
  -- Names of blocks are letters and digits.
  have number : ∀ id, '\n' ∉ 'b' :: Nat.toDigits 10 id := fun id =>
    List.not_mem_cons_of_ne_of_not_mem (by decide) (Listing.newline_toDigits id)
  intro member
  unfold tosPrintBlock at member
  rw [List.mem_append, List.mem_append] at member
  rcases member with ((first | digits) | later)
  · exact absurd first (by decide +kernel)
  · exact Listing.newline_toDigits _ digits
  -- A block without successors has no arrow.
  · split at later
    · cases later
    · rcases List.mem_append.mp later with arrow | names
      · exact absurd arrow (by decide +kernel)
      · refine Listing.not_mem_fields (by decide) (by decide) (fun text member => ?_) names
        obtain ⟨successor, -, rfl⟩ := List.mem_map.mp member
        exact number successor

/-- The line of a listed instruction is one line, and indented. -/
theorem tosPrintInst_plain {inst : TOSInst} (listed : MDSListed inst.desc inst.operands) :
    '\n' ∉ tosPrintInst doubleText inst ∧ isIndented (tosPrintInst doubleText inst) = true := by
  have plain := @mdsPrintInst_plain doubleText _ _ _ mdsOperandFormat_distinct listed
  refine ⟨?_, rfl⟩
  -- The line is an index and the text of the instruction.
  have parts : tosPrintInst doubleText inst = [' ', ' ', 't'] ++ (Nat.toDigits 10 inst.id ++
      ([':', ' '] ++ mdsPrintInst doubleText mdsOperandFormat inst.desc inst.operands)) := rfl
  intro member
  rw [parts, List.mem_append, List.mem_append, List.mem_append] at member
  rcases member with first | digits | colon | text
  · exact absurd first (by decide)
  · exact Listing.newline_toDigits _ digits
  · exact absurd colon (by decide)
  · exact plain text

/-- A listed instruction is read back from its line. -/
theorem tosPrintInst_inj {inst inst' : TOSInst} (listed : MDSListed inst.desc inst.operands)
    (listed' : MDSListed inst'.desc inst'.operands)
    (same : tosPrintInst doubleText inst = tosPrintInst doubleText inst') :
    MDSSameListed inst.desc inst'.desc inst.operands inst'.operands := by
  have colon : ∀ rest : List Char, ∀ char ∈ (':' :: rest).head?, char.isDigit = false := by
    intro rest char first
    cases first
    rfl
  -- The number ends at the colon.
  have numbered := (List.cons.inj (List.cons.inj (List.cons.inj same).2).2).2
  obtain ⟨-, texts⟩ := Listing.digits_inj (colon _) (colon _) numbered
  exact mdsPrintInst_inj mdsOperandFormat_distinct listed listed'
    (List.cons.inj (List.cons.inj texts).2).2

/-- The blocks of a valid stream have all its instructions, in order. -/
theorem tosValidateBlocks_covers {blocks : List TOSBlock} {index cursor : Nat}
    (valid : tosValidateBlocks program.instructions blocks index cursor = true) :
    blocks.flatMap (tosBlockInsts program) = program.instructions.drop cursor := by
  -- Each block takes its instructions from the rest of the stream.
  induction blocks generalizing index cursor with
  | nil =>
    rw [tosValidateBlocks, beq_iff_eq] at valid
    rw [List.flatMap_nil, valid, List.drop_length]
  | cons block rest ih =>
    rw [tosValidateBlocks] at valid
    rw [List.flatMap_cons]
    split at valid
    · cases valid
    -- An empty block takes nothing, any other block its own count.
    · split at valid
      · rename_i empty
        rw [ih (Bool.and_eq_true_iff.mp valid).2, tosBlockInsts, empty, List.take_zero,
          List.nil_append]
      · simp only [Bool.and_eq_true, beq_iff_eq] at valid
        rw [ih valid.2, tosBlockInsts, valid.1.1, ← List.drop_drop, List.take_append_drop]

/-- A stream whose blocks have all its instructions, which are printed in full. -/
structure TOSListed (program : TOSProgram) : Prop where
  covers : program.blocks.flatMap (tosBlockInsts program) = program.instructions
  insts : ∀ inst ∈ program.instructions, MDSListed inst.desc inst.operands

/-- A listed program is a page. -/
theorem TOSListed.page (listed : TOSListed program) :
    Listing.Page '\n' isIndented [tosPrintHeader program] tosPrintBlock (tosPrintInst doubleText)
      (program.blocks.flatMap (tosBlockInsts program)) where
  header := List.forall_mem_singleton.mpr ⟨tosPrintHeader_plain program, rfl⟩
  label := tosPrintBlock_plain
  line inst member := tosPrintInst_plain (listed.insts inst (listed.covers ▸ member))

/-- Streams of one text are listed alike. -/
theorem tosPrintProgram_listed (listed : TOSListed program) (listed' : TOSListed program')
    (same : tosPrintProgram doubleText program = tosPrintProgram doubleText program') :
    TOSSameListed program.instructions program'.instructions := by
  have related := listed.page.related listed'.page (fun inst inside inst' inside' =>
    tosPrintInst_inj (listed.insts inst (listed.covers ▸ inside))
      (listed'.insts inst' (listed'.covers ▸ inside'))) same
  rw [listed.covers, listed'.covers] at related
  exact related

end Lines

section Streams

/-- The stream of a program that is printed in full is printed in full. -/
theorem tosBuildFromMDS_listed {program : MDSProgram}
    (listed : ∀ inst ∈ program.insts, MDSListed inst.desc inst.operands) :
    (∀ inst ∈ program.insts, inst.desc.isSome = true) ∧
      TOSListed (tosBuildFromMDS program.laidOut).finalized := by
  -- What is printed in full has descriptors.
  have described : ∀ inst ∈ program.insts, inst.desc.isSome = true := by
    intro inst member
    obtain ⟨desc, found, -⟩ := (listed inst member).desc
    rw [found]
    rfl
  obtain ⟨-, valid, -⟩ := tosFinalizeProgram_succeeds described
  refine ⟨described, tosValidateBlocks_covers valid, fun inst member => ?_⟩
  -- The instructions of the stream are those of the program in another order.
  have kept : ⟨inst.desc, inst.operands⟩ ∈ program.laidOut.insts := by
    rw [← tosBuildFromMDS_instructions]
    exact List.mem_map.mpr ⟨inst, member, rfl⟩
  exact listed ⟨inst.desc, inst.operands⟩ ((program.laidOut_perm.flatMap_right _).mem_iff.mp kept)

/-- The text of the stream of a module without doubles determines its bytecode, whatever the
targets and the levels. -/
theorem tosPrintProgram_encodes (doubleText : DoubleBits → List Char)
    {kind kind' : MDSTargetKind} {options options' : WirbleCompileOptions}
    {module module' : MALModule} {program program' : MDSProgram} {stream stream' : TOSProgram}
    (exact : module.NoDouble) (exact' : module'.NoDouble)
    (lowered : mdsLowerFromMAL module (some (mdsCreateSelector (mdsLoadMachine kind)))
      (mdsLoadMachine kind) = some program)
    (lowered' : mdsLowerFromMAL module' (some (mdsCreateSelector (mdsLoadMachine kind')))
      (mdsLoadMachine kind') = some program')
    (finalized : wirbleFinalize options (tosBuildFromMDS program) = .ok stream)
    (finalized' : wirbleFinalize options' (tosBuildFromMDS program') = .ok stream')
    (same : tosPrintProgram doubleText stream = tosPrintProgram doubleText stream')
    (name source : Option CString) :
    wvmPrototypeFromTOS stream name source = wvmPrototypeFromTOS stream' name source := by
  -- Both streams are listed, so their texts are compared line by line.
  obtain ⟨described, listed⟩ := tosBuildFromMDS_listed fun inst member =>
    (mdsLowerFromMAL_listed exact lowered inst member).1
  obtain ⟨described', listed'⟩ := tosBuildFromMDS_listed fun inst member =>
    (mdsLowerFromMAL_listed exact' lowered' inst member).1
  rw [wirbleFinalize_described options described] at finalized
  rw [wirbleFinalize_described options' described'] at finalized'
  obtain rfl := Except.ok.inj finalized
  obtain rfl := Except.ok.inj finalized'
  exact wvmPrototypeFromTOS_listed (tosPrintProgram_listed listed listed' same) name source

/-- Functions of two types, one of them laid out by the optimizer. -/
theorem tosPrintProgram_encodes_typed :
    wvmPrototypeFromTOS (tosBuildFromMDS (mdsReturnTyped .i32).laidOut).finalized none none =
      wvmPrototypeFromTOS (tosBuildFromMDS (mdsReturnTyped .i64).laidOut).finalized none none := by
  exact @tosPrintProgram_encodes (fun _ => []) .generic .generic
    { wirbleInitCompileOptions with optimizationLevel := 0 } wirbleInitCompileOptions _ _
    (mdsReturnTyped .i32) (mdsReturnTyped .i64) _ _ (malReturnTyped_noDouble .i32)
    (malReturnTyped_noDouble .i64) (by decide) (by decide)
    (wirbleFinalize_described _ (by decide)) (wirbleFinalize_described _ (by decide))
    (by decide +kernel) none none

end Streams

end Wirble
