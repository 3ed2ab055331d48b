import Wirble.Wrs.PatternText
import Wirble.Wvm.Emitted

/-! The texts that machine programs are printed as, and what they tell about the instructions. -/

namespace Wirble

open Decimal

/-- What stands in front of the registers, integers, blocks and symbols of a printer. -/
structure MDSOperandFormat where
  reg : List Char
  imm : List Char
  block : List Char
  globalName : List Char
  funcName : List Char

/-- The format of the program and stream printers. -/
def mdsOperandFormat : MDSOperandFormat := ⟨['r'], [], ['b'], ['@'], ['$']⟩

/-- A symbol's name, or a question mark for the null pointer. -/
def MALNamePointer.printed (name : MALNamePointer) : List Char :=
  if name.address = 0 then ['?'] else name.text.toList

section Print

-- The conversion `%g` of the C library.
variable (doubleText : DoubleBits → List Char)

/-- The switch over the kinds of operands, which the printers share up to the format. -/
def mdsPrintOperand (format : MDSOperandFormat) (operand : MALOperand) : List Char :=
  match operand.payload with
  | .reg reg => format.reg ++ Nat.toDigits 10 reg.toNat
  | .immInt value => format.imm ++ decimalText value.toInt
  | .immFloat value => doubleText value
  | .block id => format.block ++ Nat.toDigits 10 id.toNat
  | .globalName name => format.globalName ++ name.printed
  | .funcName name => format.funcName ++ name.printed
  | .asType type => "type(".toList ++ Nat.toDigits 10 type.ctorIdx ++ [')']
  | .vec elementType count =>
    '<' :: Nat.toDigits 10 count.toNat ++ " x ".toList ++
      Nat.toDigits 10 elementType.ctorIdx ++ ['>']

/-- Operands behind a name, with commas between them. -/
def mdsPrintOperands (format : MDSOperandFormat) (operands : List MALOperand) : List Char :=
  if operands = [] then []
  else ' ' :: Listing.fields ',' [' '] (operands.map (mdsPrintOperand doubleText format))

/-- The name of an instruction with its operands. -/
def mdsPrintInst (format : MDSOperandFormat) (desc : Option MDSInstruction)
    (operands : List MALOperand) : List Char :=
  ((desc.map (·.mnemonic)).getD "<invalid>").toList ++ mdsPrintOperands doubleText format operands

def mdsTargetKindName : MDSTargetKind → String
  | .x86_64 => "x86_64"
  | .aarch64 => "aarch64"
  | .wasm => "wasm"
  | .generic => "generic"

/-- The name of the machine of a program. -/
def mdsMachineName (machine : Option MDSMachine) : List Char :=
  ((machine.map fun machine => mdsTargetKindName machine.targetKind).getD "unknown").toList

/-- `mds_print_program_to_file`: a line for the program, each block and each instruction. -/
def mdsPrintProgram (program : MDSProgram) : List Char :=
  Listing.lines '\n' (
    ("mds-program ".toList ++ mdsMachineName program.machine ++ " (".toList ++
      Nat.toDigits 10 program.blocks.length ++ " blocks)".toList) ::
    Listing.sections (fun block => 'b' :: (Nat.toDigits 10 block.id ++ [':']))
      (fun block => block.instructions.map fun inst =>
        ' ' :: ' ' :: mdsPrintInst doubleText mdsOperandFormat inst.desc inst.operands)
      program.blocks)

end Print

/-! What a printed instruction tells. -/

/-- The lines of instructions are the indented ones. -/
def isIndented (line : List Char) : Bool := line.head? == some ' '

/-- Registers and integers are printed in full. -/
def MALOperand.isListed (operand : MALOperand) : Bool :=
  match operand.payload with
  | .reg _ | .immInt _ => true
  | _ => false

/-- Registers and integers are told apart, on one line and between commas. -/
structure MDSOperandFormat.Distinct (format : MDSOperandFormat) : Prop where
  apart : ∀ (number : Nat) (value : Int),
    format.reg ++ Nat.toDigits 10 number ≠ format.imm ++ decimalText value
  plain : ∀ char ∈ format.reg ++ format.imm, char ≠ ',' ∧ char ≠ '\n'

/-- The texts of operands in a listing tell their kinds apart. -/
theorem mdsOperandFormat_distinct : mdsOperandFormat.Distinct where
  apart number value same := by
    -- No number begins with the letter of a register.
    have first : 'r' ∈ decimalText value :=
      (show _ = decimalText value from same) ▸ List.mem_cons_self
    rcases mem_decimalText first with digit | minus
    · cases digit
    · cases minus
  plain char member := by
    rw [List.mem_singleton.mp member]
    decide

section Operands

variable {doubleText : DoubleBits → List Char} {format : MDSOperandFormat}
  {operand operand' : MALOperand}

/-- A listed operand is a register or an integer. -/
theorem MALOperand.isListed_cases (listed : operand.isListed = true) :
    (∃ reg, operand.payload = .reg reg) ∨ ∃ value, operand.payload = .immInt value := by
  rw [MALOperand.isListed] at listed
  split at listed
  · exact .inl ⟨_, by assumption⟩
  · exact .inr ⟨_, by assumption⟩
  · cases listed

/-- A listed operand is read back from its text. -/
theorem mdsPrintOperand_inj (distinct : format.Distinct) (listed : operand.isListed = true)
    (listed' : operand'.isListed = true)
    (same : mdsPrintOperand doubleText format operand =
      mdsPrintOperand doubleText format operand') :
    operand.payload = operand'.payload := by
  rw [mdsPrintOperand, mdsPrintOperand] at same
  -- Both operands are of one kind, for the texts tell the kinds apart.
  rcases MALOperand.isListed_cases listed with ⟨reg, payload⟩ | ⟨value, payload⟩ <;>
    rcases MALOperand.isListed_cases listed' with ⟨reg', payload'⟩ | ⟨value', payload'⟩ <;>
    rw [payload, payload'] at same ⊢ <;> simp only at same
  · have numbers := Listing.toDigits_injective (List.append_cancel_left same)
    rw [BitVec.eq_of_toNat_eq numbers]
  · exact absurd same (distinct.apart _ _)
  · exact absurd same.symm (distinct.apart _ _)
  · have numbers := decimalText_injective (List.append_cancel_left same)
    rw [BitVec.eq_of_toInt_eq numbers]

/-- A listed operand has some text, between commas and on one line. -/
theorem mdsPrintOperand_plain (distinct : format.Distinct) (listed : operand.isListed = true) :
    mdsPrintOperand doubleText format operand ≠ [] ∧
      ∀ char ∈ mdsPrintOperand doubleText format operand, char ≠ ',' ∧ char ≠ '\n' := by
  have plain := List.forall_mem_append.mp distinct.plain
  have minus : '-' ≠ ',' ∧ '-' ≠ '\n' := by decide
  rw [mdsPrintOperand]
  -- Registers and integers are printed as a mark and digits.
  rcases MALOperand.isListed_cases listed with ⟨reg, payload⟩ | ⟨value, payload⟩ <;>
    rw [payload] <;> simp only
  · refine ⟨fun empty => Nat.toDigits_ne_nil (List.append_eq_nil_iff.mp empty).2,
      List.forall_mem_append.mpr ⟨plain.1, fun char member => ?_⟩⟩
    exact (Listing.isDigit_ne (Listing.isDigit_toDigits _ char member)).2
  -- An integer has digits, behind a minus at most.
  · refine ⟨fun empty => ?_, List.forall_mem_append.mpr ⟨plain.2, fun char member => ?_⟩⟩
    · have none := (List.append_eq_nil_iff.mp empty).2
      rw [decimalText] at none
      split at none
      · cases none
      · exact Nat.toDigits_ne_nil none
    · rcases mem_decimalText member with digit | rfl
      · exact (Listing.isDigit_ne digit).2
      · exact minus

/-- Listed operands are read back from their text. -/
theorem mdsPrintOperands_inj (distinct : format.Distinct) {operands operands' : List MALOperand}
    (listed : ∀ operand ∈ operands, operand.isListed = true)
    (listed' : ∀ operand ∈ operands', operand.isListed = true)
    (same : mdsPrintOperands doubleText format operands =
      mdsPrintOperands doubleText format operands') :
    operands.map (·.payload) = operands'.map (·.payload) := by
  -- No text of an operand is empty or has a comma in it.
  have plain : ∀ {operands : List MALOperand}, (∀ operand ∈ operands, operand.isListed = true) →
      ∀ text ∈ operands.map (mdsPrintOperand doubleText format), text ≠ [] ∧ ',' ∉ text := by
    intro operands listed text member
    obtain ⟨operand, inside, rfl⟩ := List.mem_map.mp member
    obtain ⟨some, plain⟩ := @mdsPrintOperand_plain doubleText _ _ distinct (listed operand inside)
    exact ⟨some, fun comma => (plain _ comma).1 rfl⟩
  -- Operand by operand, the text gives the payload back.
  have payloads : operands.map (mdsPrintOperand doubleText format) =
      operands'.map (mdsPrintOperand doubleText format) →
        operands.map (·.payload) = operands'.map (·.payload) := by
    intro texts
    have each : List.Forall₂ (· = ·) (operands.map (·.payload)) (operands'.map (·.payload)) := by
      rw [List.forall₂_map_left_iff, List.forall₂_map_right_iff]
      exact Listing.forall₂_of_map (fun operand inside operand' inside' =>
        mdsPrintOperand_inj distinct (listed operand inside) (listed' operand' inside')) texts
    rw [List.forall₂_eq_eq_eq] at each
    exact each
  rw [mdsPrintOperands, mdsPrintOperands] at same
  -- No operands are printed as nothing, and some behind a space.
  split at same
  · rename_i empty
    split at same
    · rename_i empty'
      rw [empty, empty']
    · cases same
  · split at same
    · cases same
    · exact payloads
        (Listing.fields_injective (plain listed) (plain listed') (List.cons.inj same).2)

end Operands

/-- A descriptor whose name is a word. -/
def MDSInstruction.isListed (desc : MDSInstruction) : Bool :=
  desc.mnemonic.toList.all fun char => char != ' ' && char != '\n'

/-- An instruction that is printed in full. -/
structure MDSListed (desc : Option MDSInstruction) (operands : List MALOperand) : Prop where
  desc : ∃ descriptor, desc = some descriptor ∧ descriptor.isListed = true
  operands : ∀ operand ∈ operands, operand.isListed = true

/-- Two instructions have the same name and operands of the same values. -/
def MDSSameListed (desc desc' : Option MDSInstruction) (operands operands' : List MALOperand) :
    Prop :=
  desc.map (·.mnemonic) = desc'.map (·.mnemonic) ∧
    operands.map (·.payload) = operands'.map (·.payload)

section Insts

variable {doubleText : DoubleBits → List Char} {format : MDSOperandFormat}
  {desc desc' : Option MDSInstruction} {operands operands' : List MALOperand}

/-- A listed instruction is read back from its text. -/
theorem mdsPrintInst_inj (distinct : format.Distinct) (listed : MDSListed desc operands)
    (listed' : MDSListed desc' operands')
    (same : mdsPrintInst doubleText format desc operands =
      mdsPrintInst doubleText format desc' operands') :
    MDSSameListed desc desc' operands operands' := by
  obtain ⟨descriptor, rfl, name⟩ := listed.desc
  obtain ⟨descriptor', rfl, name'⟩ := listed'.desc
  have word : ∀ {descriptor : MDSInstruction}, descriptor.isListed = true →
      ∀ char ∈ descriptor.mnemonic.toList, (char != ' ') = true := fun listed char member =>
    (Bool.and_eq_true_iff.mp (List.all_eq_true.mp listed char member)).1
  have ends : ∀ operands : List MALOperand,
      ∀ char ∈ (mdsPrintOperands doubleText format operands).head?, (char != ' ') = false := by
    intro operands char first
    rw [mdsPrintOperands] at first
    split at first
    · cases first
    · cases first
      rfl
  -- The name ends at the first space, or at the end of the line.
  obtain ⟨names, texts⟩ := Listing.word_inj (word name) (word name') (ends _) (ends _) same
  refine ⟨?_, mdsPrintOperands_inj distinct listed.operands listed'.operands texts⟩
  rw [Option.map_some, Option.map_some, String.toList_inj.mp names]

/-- A listed instruction stays on its line. -/
theorem mdsPrintInst_plain (distinct : format.Distinct) (listed : MDSListed desc operands) :
    '\n' ∉ mdsPrintInst doubleText format desc operands := by
  obtain ⟨descriptor, rfl, name⟩ := listed.desc
  have space : '\n' ≠ ' ' := by decide
  have comma : '\n' ≠ ',' := by decide
  rw [mdsPrintInst, List.mem_append, not_or]
  constructor
  -- The name is a word of the table.
  · intro member
    have each := Bool.and_eq_true_iff.mp (List.all_eq_true.mp name _ member)
    exact bne_iff_ne.mp each.2 rfl
  -- The operands stand between spaces and commas.
  · rw [mdsPrintOperands]
    split
    · exact List.not_mem_nil
    · refine fun member => ?_
      rcases List.mem_cons.mp member with first | inside
      · exact space first
      · refine Listing.not_mem_fields comma (fun filling => space (List.mem_singleton.mp filling))
          (fun text member => ?_) inside
        obtain ⟨operand, place, rfl⟩ := List.mem_map.mp member
        exact fun newline => ((mdsPrintOperand_plain distinct
          (listed.operands operand place)).2 _ newline).2 rfl

end Insts

/-! What is selected is printed in full, doubles apart. -/

/-- The names of the built-in instructions are words. -/
theorem mdsLoadMachine_listed (kind : MDSTargetKind) :
    ∀ desc ∈ (mdsLoadMachine kind).instrById, desc.isListed = true := by
  -- The targets differ in the first part of the names only.
  cases kind <;> decide +kernel

/-- No operand is a double. -/
def MALInst.NoDouble (inst : MALInst) : Prop :=
  ∀ operand ∈ inst.operands, ∀ value, operand.payload ≠ .immFloat value

def MALModule.NoDouble (module : MALModule) : Prop :=
  ∀ fn ∈ module.functions, ∀ inst ∈ fn.insts, inst.NoDouble

/-- An operand of the right shape is listed unless it is a floating-point number. -/
theorem OperandShaped.listed {desc : MDSOperandDesc} {operand : MALOperand}
    (shaped : OperandShaped desc operand) (exact : ∀ value, operand.payload ≠ .immFloat value) :
    operand.isListed = true := by
  unfold OperandShaped at shaped
  split at shaped
  -- An immediate is an integer here, and anything else is a register.
  · rcases mdsIsImmediate_cases shaped with ⟨value, payload⟩ | ⟨value, payload⟩
    · simp only [MALOperand.isListed, payload]
    · exact absurd payload (exact value)
  · obtain ⟨reg, payload⟩ := MALOperand.isReg_cases shaped
    simp only [MALOperand.isListed, payload]

/-- The descriptor of a selected instruction is one of the machine. -/
theorem SelectedBy.mem {kind : MDSTargetKind} {inst : MALInst} {out : MDSInst}
    {desc : MDSInstruction} (selected : SelectedBy (mdsLoadMachine kind) inst out desc) :
    desc ∈ (mdsLoadMachine kind).instrById := by
  have decodes := selected.decodes
  unfold mdsDecodeInstruction at decodes
  -- The opcode is one of the machine, or nothing would have been decoded.
  split at decodes
  · cases decodes
  · split at decodes
    · cases decodes
    · exact List.mem_of_getElem? decodes

/-- A selected instruction has a name from the table, a register and shaped operands. -/
theorem SelectedBy.listed {kind : MDSTargetKind} {inst : MALInst} {out : MDSInst}
    {desc : MDSInstruction} (selected : SelectedBy (mdsLoadMachine kind) inst out desc)
    (exact : inst.NoDouble) : MDSListed out.desc out.operands := by
  refine ⟨⟨desc, selected.described, mdsLoadMachine_listed kind desc selected.mem⟩, ?_⟩
  rw [selected.operands]
  refine List.forall_mem_append.mpr ⟨fun operand inside => ?_, fun operand inside => ?_⟩
  -- The first operand is the register that is written, if there is one.
  · unfold mdsDestination at inside
    split at inside
    · cases inside
    · split at inside
      · cases inside
      · split at inside
        · rw [List.mem_singleton.mp inside]
          rfl
        · cases inside
  -- Each of the others has the shape that the pattern asks for.
  · obtain ⟨demand, -, shaped⟩ := Search.forall₂_mem_right selected.inputs inside
    exact shaped.listed (exact operand inside)

section Programs

variable {kind : MDSTargetKind} {module module' : MALModule} {program program' : MDSProgram}

/-- Lowered programs are printed in full, and have their names from the table. -/
theorem mdsLowerFromMAL_listed (exact : module.NoDouble)
    (lowered : mdsLowerFromMAL module (some (mdsCreateSelector (mdsLoadMachine kind)))
      (mdsLoadMachine kind) = some program) :
    ∀ inst ∈ program.insts, MDSListed inst.desc inst.operands ∧
      ∃ desc ∈ (mdsLoadMachine kind).instrById, inst.desc = some desc := by
  intro out member
  -- Each instruction of the program was selected for one of the module.
  obtain ⟨fn, function, inst, inside, built⟩ := mdsLowerFromMAL_insts lowered out member
  rw [Option.getD_some] at built
  obtain ⟨desc, selected⟩ := mdsBuildSelectedInst_selectedBy built
  exact ⟨selected.listed (exact fn function inst inside), desc, selected.mem, selected.described⟩

/-- Within a target the name tells the instruction. -/
theorem mdsLoadMachine_named (kind : MDSTargetKind) :
    ∀ desc ∈ (mdsLoadMachine kind).instrById, ∀ desc' ∈ (mdsLoadMachine kind).instrById,
      desc.mnemonic = desc'.mnemonic → desc = desc' := by
  cases kind <;> decide +kernel

/-- Programs with the same instructions are written as the same bytes. -/
theorem mdsEmitBuffer_values (same : program.values = program'.values) :
    mdsEmitBuffer program = mdsEmitBuffer program' := by
  -- The bytes are made of the descriptor and the payloads alone.
  have bytes : ∀ program : MDSProgram, mdsEmitBuffer program = program.values.flatMap fun value =>
      (value.1.bind (·.fixedByte)).getD 0 ::
        value.2.flatMap fun payload => mdsPayloadBytes (mdsBufferPayload ⟨.void, payload⟩) := by
    intro program
    rw [mdsEmitBuffer_eq, MDSProgram.values, List.flatMap_map]
    refine congrArg (List.flatMap · program.insts) (funext fun inst => ?_)
    rw [List.flatMap_map]
    rfl
  rw [bytes, bytes, same]

variable {doubleText : DoubleBits → List Char} {format : MDSOperandFormat}
  {line : MDSInst → List Char} {label : MDSBasicBlock → List Char}
  {header header' : List (List Char)}

/-- Pages with an indented line for each instruction determine the instructions of programs for
one target, also where operands are printed last to first. -/
theorem MDSProgram.values_of_lines (distinct : format.Distinct) (reversed : Bool)
    (shown : ∀ inst : MDSInst, inst.desc.isSome = true → line inst = ' ' :: ' ' ::
      mdsPrintInst doubleText format inst.desc
        (if reversed then inst.operands.reverse else inst.operands))
    (headers : ∀ text ∈ header, '\n' ∉ text ∧ isIndented text = false)
    (headers' : ∀ text ∈ header', '\n' ∉ text ∧ isIndented text = false)
    (labels : ∀ block, '\n' ∉ label block ∧ isIndented (label block) = false)
    (listed : ∀ inst ∈ program.insts, MDSListed inst.desc inst.operands ∧
      ∃ desc ∈ (mdsLoadMachine kind).instrById, inst.desc = some desc)
    (listed' : ∀ inst ∈ program'.insts, MDSListed inst.desc inst.operands ∧
      ∃ desc ∈ (mdsLoadMachine kind).instrById, inst.desc = some desc)
    (same : Listing.lines '\n' (header ++ Listing.sections label
        (fun block => block.instructions.map line) program.blocks) =
      Listing.lines '\n' (header' ++ Listing.sections label
        (fun block => block.instructions.map line) program'.blocks)) :
    program.values = program'.values := by
  -- Turning the operands around leaves a listed instruction listed.
  have turned : ∀ {inst : MDSInst}, MDSListed inst.desc inst.operands →
      MDSListed inst.desc (if reversed then inst.operands.reverse else inst.operands) := by
    intro inst whole
    refine ⟨whole.desc, fun operand member => whole.operands operand ?_⟩
    split at member
    · exact List.mem_reverse.mp member
    · exact member
  have some : ∀ {inst : MDSInst}, MDSListed inst.desc inst.operands → inst.desc.isSome = true := by
    intro inst whole
    obtain ⟨desc, found, -⟩ := whole.desc
    rw [found]
    rfl
  -- Every instruction has a line of its own, which is indented.
  have plain : ∀ {inst : MDSInst}, MDSListed inst.desc inst.operands →
      '\n' ∉ line inst ∧ isIndented (line inst) = true := by
    intro inst whole
    rw [shown inst (some whole)]
    have newline : '\n' ≠ ' ' := by decide
    exact ⟨List.not_mem_cons_of_ne_of_not_mem newline (List.not_mem_cons_of_ne_of_not_mem newline
      (mdsPrintInst_plain distinct (turned whole))), rfl⟩
  -- So both programs are pages, and the marked lines are their instructions.
  have page : Listing.Page '\n' isIndented header label line
      (program.blocks.flatMap (·.instructions)) :=
    ⟨headers, labels, fun inst member => plain (listed inst member).1⟩
  have page' : Listing.Page '\n' isIndented header' label line
      (program'.blocks.flatMap (·.instructions)) :=
    ⟨headers', labels, fun inst member => plain (listed' inst member).1⟩
  -- Equal lines belong to equal instructions.
  have related : List.Forall₂ (· = ·) program.values program'.values := by
    rw [MDSProgram.values, MDSProgram.values, List.forall₂_map_left_iff,
      List.forall₂_map_right_iff]
    refine page.related page' (fun inst member inst' member' equal => ?_) same
    obtain ⟨whole, desc, known, found⟩ := listed inst member
    obtain ⟨whole', desc', known', found'⟩ := listed' inst' member'
    rw [shown inst (some whole), shown inst' (some whole')] at equal
    obtain ⟨names, payloads⟩ := mdsPrintInst_inj distinct (turned whole) (turned whole')
      (List.cons.inj (List.cons.inj equal).2).2
    rw [found, found'] at names
    -- The names of a machine determine their descriptors.
    have descs := mdsLoadMachine_named kind desc known desc' known'
      (Option.some.inj names)
    -- The operands are turned back.
    have values : inst.operands.map (·.payload) = inst'.operands.map (·.payload) := by
      cases reversed with
      | false => exact payloads
      | true =>
        refine List.reverse_inj.mp ?_
        rw [← List.map_reverse, ← List.map_reverse]
        exact payloads
    show (inst.desc, inst.operands.map (·.payload)) = (inst'.desc, inst'.operands.map (·.payload))
    rw [found, found', descs, values]
  rw [List.forall₂_eq_eq_eq] at related
  exact related

/-- The label of a block is one line. -/
theorem newline_label {mark : List Char} (id : Nat) (plain : '\n' ∉ mark) :
    '\n' ∉ mark ++ (Nat.toDigits 10 id ++ [':']) := by
  intro member
  rw [List.mem_append, List.mem_append, List.mem_singleton] at member
  rcases member with first | digits | colon
  · exact plain first
  · exact Listing.newline_toDigits id digits
  · exact absurd colon (by decide)

/-- The name of a machine has no line end. -/
theorem mdsMachineName_plain (machine : Option MDSMachine) : '\n' ∉ mdsMachineName machine := by
  rw [mdsMachineName]
  cases machine with
  | none => decide +kernel
  | some machine =>
    rw [Option.map_some, Option.getD_some]
    cases machine.targetKind <;> decide +kernel

/-- The text of a program for a target determines its instructions. -/
theorem mdsPrintProgram_values
    (listed : ∀ inst ∈ program.insts, MDSListed inst.desc inst.operands ∧
      ∃ desc ∈ (mdsLoadMachine kind).instrById, inst.desc = some desc)
    (listed' : ∀ inst ∈ program'.insts, MDSListed inst.desc inst.operands ∧
      ∃ desc ∈ (mdsLoadMachine kind).instrById, inst.desc = some desc)
    (same : mdsPrintProgram doubleText program = mdsPrintProgram doubleText program') :
    program.values = program'.values := by
  -- The header is a line of words and one number.
  have header : ∀ program : MDSProgram, '\n' ∉ "mds-program ".toList ++
      mdsMachineName program.machine ++ " (".toList ++ Nat.toDigits 10 program.blocks.length ++
        " blocks)".toList := by
    intro program member
    rw [List.mem_append, List.mem_append, List.mem_append, List.mem_append] at member
    rcases member with ((((first | name) | bracket) | count) | last)
    · exact absurd first (by decide +kernel)
    · exact mdsMachineName_plain _ name
    · exact absurd bracket (by decide +kernel)
    · exact Listing.newline_toDigits _ count
    · exact absurd last (by decide +kernel)
  -- The program is a page with one label for each block.
  exact MDSProgram.values_of_lines mdsOperandFormat_distinct false (fun _ _ => rfl)
    (List.forall_mem_singleton.mpr ⟨header program, rfl⟩)
    (List.forall_mem_singleton.mpr ⟨header program', rfl⟩)
    (fun block => ⟨@newline_label ['b'] block.id (by decide), rfl⟩) listed listed' same

end Programs

/-! A function that returns five as a value of some type, and its program. -/

def malReturnTyped (type : MALType) : MALFunction :=
  ⟨"five", type, [], 0,
    [⟨0, [⟨0, .copy, type, 0, [malOperandImmInt 5 type]⟩,
      ⟨1, .ret, .void, malInvalidReg, [malOperandReg 0 type]⟩], [], []⟩], 1⟩

def mdsReturnTyped (type : MALType) : MDSProgram where
  machine := some (mdsLoadMachine .generic)
  blocks :=
    [⟨0, [⟨some (mdsInitInstruction 1 "generic.mov.ri" mdsBinaryImm),
        [malOperandReg 0 type, malOperandImmInt 5 type]⟩,
      ⟨some (mdsInitInstruction 20 "generic.ret" mdsRetOps), [malOperandReg 0 type]⟩], []⟩]

/-- A return of one register has no floating-point number. -/
theorem malReturnTyped_noDouble (type : MALType) :
    MALModule.NoDouble ⟨[malReturnTyped type], none⟩ := by
  simp [MALModule.NoDouble, MALInst.NoDouble, MALFunction.insts, malReturnTyped, malOperandImmInt,
    malOperandReg]

end Wirble
