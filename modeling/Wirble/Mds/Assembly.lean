import Wirble.Mds.Listing

/-! The assembly that machine programs are written as, which tells their machine code. -/

namespace Wirble

inductive WirbleAsmFlavor where
  | gas | nasm
  deriving DecidableEq, Repr

inductive WirbleX86Syntax where
  | att | intel
  deriving DecidableEq, Repr

section Write

-- The conversion `%g` of the C library.
variable (doubleText : DoubleBits → List Char) (flavor : WirbleAsmFlavor)
  (x86Syntax : WirbleX86Syntax)

def isX86Target (program : MDSProgram) : Bool :=
  program.machine.any fun machine => machine.targetKind == .x86_64

/-- The test of `write_operand` and of `write_inst`, by which registers and integers are marked
and operands are written last to first. -/
def isATTSyntax (program : MDSProgram) : Bool :=
  isX86Target program && flavor == .gas && x86Syntax == .att

/-- What `write_operand` puts in front of registers, integers, blocks and symbols. -/
def asmOperandFormat (att : Bool) : MDSOperandFormat :=
  if att then ⟨['%', 'r'], ['$'], ['.', 'L'], [], []⟩ else ⟨['r'], [], ['.', 'L'], [], []⟩

/-- `write_inst`: no operands are written where the descriptor is null. -/
def writeInst (att : Bool) (inst : MDSInst) : List Char :=
  match inst.desc with
  | none => "  .invalid".toList
  | some desc => ' ' :: ' ' :: mdsPrintInst doubleText (asmOperandFormat att) (some desc)
      (if att then inst.operands.reverse else inst.operands)

/-- The lines in front of the blocks. -/
def asmHeader (program : MDSProgram) : List (List Char) :=
  match flavor with
  | .gas =>
    (if isX86Target program && x86Syntax == .intel then [".intel_syntax noprefix".toList]
      else []) ++ [".text".toList, ".global main".toList, "main:".toList]
  | .nasm => ["section .text".toList, ".global main".toList, "main:".toList]

/-- The text of the file that the call writes. -/
def wirbleEmitSymbolicAssembly (program : MDSProgram) : List Char :=
  Listing.lines '\n' (asmHeader flavor x86Syntax program ++
    Listing.sections (fun block => '.' :: 'L' :: (Nat.toDigits 10 block.id ++ [':']))
      (fun block => block.instructions.map
        (writeInst doubleText (isATTSyntax flavor x86Syntax program))) program.blocks)

end Write

/-- The texts of operands in assembly tell their kinds apart. -/
theorem asmOperandFormat_distinct (att : Bool) : (asmOperandFormat att).Distinct := by
  -- One syntax has the format of the listing, and the other marks every operand.
  cases att with
  | false => exact ⟨mdsOperandFormat_distinct.apart, mdsOperandFormat_distinct.plain⟩
  | true =>
    refine ⟨fun number value same => ?_, fun char member => ?_⟩
    · have marks : '%' = '$' := (List.cons.inj same).1
      exact absurd marks (by decide)
    · have marks : char ∈ ['%', 'r', '$'] := member
      simp only [List.mem_cons, List.not_mem_nil, or_false] at marks
      rcases marks with rfl | rfl | rfl <;> decide

/-- The header of an assembly has plain lines, none of which is indented. -/
theorem asmHeader_plain (flavor : WirbleAsmFlavor) (x86Syntax : WirbleX86Syntax)
    (program : MDSProgram) :
    ∀ text ∈ asmHeader flavor x86Syntax program, '\n' ∉ text ∧ isIndented text = false := by
  -- The header depends on the flavor, and for one of them on the syntax.
  cases flavor with
  | gas =>
    rw [asmHeader]
    generalize (isX86Target program && x86Syntax == .intel) = intel
    cases intel <;> decide +kernel
  | nasm =>
    rw [asmHeader]
    decide +kernel

section Programs

variable {doubleText : DoubleBits → List Char} {kind : MDSTargetKind}
  {module module' : MALModule} {program program' : MDSProgram}

/-- A lowered program names its machine. -/
theorem mdsLowerFromMAL_machine {selector : Option MDSInstrSelector} {machine : MDSMachine}
    (lowered : mdsLowerFromMAL module selector machine = some program) :
    program.machine = some machine := by
  obtain ⟨blocks, -, rfl⟩ := Option.map_eq_some_iff.mp lowered
  rfl

/-- The assembly of a program for a target determines its instructions. -/
theorem wirbleEmitSymbolicAssembly_values {flavor : WirbleAsmFlavor} {x86Syntax : WirbleX86Syntax}
    (machine : program.machine = program'.machine)
    (listed : ∀ inst ∈ program.insts, MDSListed inst.desc inst.operands ∧
      ∃ desc ∈ (mdsLoadMachine kind).instrById, inst.desc = some desc)
    (listed' : ∀ inst ∈ program'.insts, MDSListed inst.desc inst.operands ∧
      ∃ desc ∈ (mdsLoadMachine kind).instrById, inst.desc = some desc)
    (same : wirbleEmitSymbolicAssembly doubleText flavor x86Syntax program =
      wirbleEmitSymbolicAssembly doubleText flavor x86Syntax program') :
    program.values = program'.values := by
  -- Both programs are for one target, so they are printed in one syntax.
  have syntaxes : isATTSyntax flavor x86Syntax program' = isATTSyntax flavor x86Syntax program := by
    rw [isATTSyntax, isATTSyntax, isX86Target, isX86Target, machine]
  rw [wirbleEmitSymbolicAssembly, wirbleEmitSymbolicAssembly, syntaxes] at same
  generalize att : isATTSyntax flavor x86Syntax program = reversed at same
  -- An instruction with a descriptor has a line of its own.
  have shown : ∀ inst : MDSInst, inst.desc.isSome = true → writeInst doubleText reversed inst =
      ' ' :: ' ' :: mdsPrintInst doubleText (asmOperandFormat reversed) inst.desc
        (if reversed then inst.operands.reverse else inst.operands) := by
    intro inst described
    rw [writeInst]
    cases found : inst.desc with
    | none =>
      rw [found] at described
      cases described
    | some desc => rfl
  exact MDSProgram.values_of_lines (asmOperandFormat_distinct reversed) reversed shown
    (asmHeader_plain _ _ program) (asmHeader_plain _ _ program')
    (fun block => ⟨@newline_label ['.', 'L'] block.id (by decide), rfl⟩) listed listed' same

/-- The listing of a program without doubles determines its machine code, and so does its assembly
of every flavor and syntax. -/
theorem mdsEmitBuffer_of_texts (doubleText : DoubleBits → List Char)
    (exact : module.NoDouble) (exact' : module'.NoDouble)
    (lowered : mdsLowerFromMAL module (some (mdsCreateSelector (mdsLoadMachine kind)))
      (mdsLoadMachine kind) = some program)
    (lowered' : mdsLowerFromMAL module' (some (mdsCreateSelector (mdsLoadMachine kind)))
      (mdsLoadMachine kind) = some program')
    (same : mdsPrintProgram doubleText program = mdsPrintProgram doubleText program' ∨
      ∃ flavor x86Syntax, wirbleEmitSymbolicAssembly doubleText flavor x86Syntax program =
        wirbleEmitSymbolicAssembly doubleText flavor x86Syntax program') :
    program.values = program'.values ∧ mdsEmitBuffer program = mdsEmitBuffer program' := by
  have listed := mdsLowerFromMAL_listed exact lowered
  have listed' := mdsLowerFromMAL_listed exact' lowered'
  have machine : program.machine = program'.machine :=
    (mdsLowerFromMAL_machine lowered).trans (mdsLowerFromMAL_machine lowered').symm
  have values : program.values = program'.values := by
    -- The listing and the assembly both determine the instructions.
    rcases same with printed | ⟨flavor, x86Syntax, written⟩
    · exact mdsPrintProgram_values listed listed' printed
    · exact wirbleEmitSymbolicAssembly_values machine listed listed' written
  exact ⟨values, mdsEmitBuffer_values values⟩

/-- Functions of two types have one assembly. -/
theorem mdsEmitBuffer_of_texts_typed :
    (mdsReturnTyped .i32).values = (mdsReturnTyped .i64).values ∧
      mdsEmitBuffer (mdsReturnTyped .i32) = mdsEmitBuffer (mdsReturnTyped .i64) :=
  @mdsEmitBuffer_of_texts .generic ⟨[malReturnTyped .i32], none⟩ ⟨[malReturnTyped .i64], none⟩
    (mdsReturnTyped .i32) (mdsReturnTyped .i64) (fun _ => []) (malReturnTyped_noDouble .i32)
    (malReturnTyped_noDouble .i64) (by decide) (by decide)
    (.inr ⟨.gas, .att, by decide +kernel⟩)

end Programs

end Wirble
