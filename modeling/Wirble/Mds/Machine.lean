import Wirble.Mal.Ir
import Wirble.Library.Bytes

/-! Machine descriptions, selection patterns and the lowering of modules to machine programs. -/

namespace Wirble

/-- The targets with a built-in description. -/
inductive MDSTargetKind where
  | generic | x86_64 | aarch64 | wasm
  deriving DecidableEq, Repr

/-- An operand of a machine instruction. -/
structure MDSOperandDesc where
  /-- The operand type is `MDS_OPERAND_IMM` rather than `MDS_OPERAND_REG`. -/
  isImm : Bool
  isOutput : Bool
  deriving DecidableEq, Repr

/-- The descriptor of a machine instruction. -/
structure MDSInstruction where
  id : Nat
  mnemonic : String
  operands : List MDSOperandDesc
  /-- The first of the fixed bytes, if the instruction has an encoding. -/
  fixedByte : Option Byte
  selectionCost : Int
  deriving DecidableEq, Repr

/-- A machine is its instructions, with a table of them by identifier. -/
structure MDSMachine where
  targetKind : MDSTargetKind
  instructions : List MDSInstruction
  instrById : List MDSInstruction
  deriving DecidableEq, Repr

/-- A register that is written or read. Whether it is read is never asked. -/
def mdsMakeRegOperand (isOutput : Bool) : MDSOperandDesc := ⟨false, isOutput⟩

def mdsMakeImmOperand : MDSOperandDesc := ⟨true, false⟩

/-- The operand lists that the built-in instructions share. -/
def mdsBinaryReg : List MDSOperandDesc :=
  [mdsMakeRegOperand true, mdsMakeRegOperand false]

def mdsBinaryImm : List MDSOperandDesc :=
  [mdsMakeRegOperand true, mdsMakeImmOperand]

def mdsTernaryReg : List MDSOperandDesc :=
  [mdsMakeRegOperand true, mdsMakeRegOperand false, mdsMakeRegOperand false]

def mdsTernaryImm : List MDSOperandDesc :=
  [mdsMakeRegOperand true, mdsMakeRegOperand false, mdsMakeImmOperand]

def mdsRetOps : List MDSOperandDesc := [mdsMakeRegOperand false]

/-- The part of a mnemonic before its dot. -/
def mdsMnemonicPrefix : MDSTargetKind → String
  | .x86_64 => "x64"
  | .aarch64 => "a64"
  | .wasm => "wasm"
  | .generic => "generic"

def mdsBuildMnemonic (kind : MDSTargetKind) (suffix : String) : String :=
  mdsMnemonicPrefix kind ++ "." ++ suffix

/-- Names and operands of the built-in instructions, in the order of their identifiers. -/
def mdsBuiltinTable : List (String × List MDSOperandDesc) :=
  [("mov.rr", mdsBinaryReg), ("mov.ri", mdsBinaryImm),
    ("add.rr", mdsTernaryReg), ("add.ri", mdsTernaryImm),
    ("sub.rr", mdsTernaryReg), ("sub.ri", mdsTernaryImm),
    ("mul.rr", mdsTernaryReg), ("neg", mdsBinaryReg),
    ("and.rr", mdsTernaryReg), ("or.rr", mdsTernaryReg), ("xor.rr", mdsTernaryReg),
    ("not", mdsBinaryReg), ("shl.ri", mdsTernaryImm), ("ashr.ri", mdsTernaryImm),
    ("icmp.eq", mdsTernaryReg), ("icmp.ne", mdsTernaryReg),
    ("icmp.slt", mdsTernaryReg), ("icmp.sle", mdsTernaryReg),
    ("icmp.sgt", mdsTernaryReg), ("icmp.sge", mdsTernaryReg), ("ret", mdsRetOps)]

/-- The first fixed byte of an instruction is its identifier, and all of them cost the same. -/
def mdsInitInstruction (id : Nat) (mnemonic : String) (operands : List MDSOperandDesc) :
    MDSInstruction :=
  ⟨id, mnemonic, operands, some (BitVec.ofNat 8 id), 1⟩

def mdsBuildBuiltinInstructions (kind : MDSTargetKind) : List MDSInstruction :=
  mdsBuiltinTable.mapIdx fun id entry =>
    mdsInitInstruction id (mdsBuildMnemonic kind entry.1) entry.2

/-- The description depends on the target that the path names, and not on any file. -/
def mdsLoadMachine (kind : MDSTargetKind) : MDSMachine where
  targetKind := kind
  instructions := mdsBuildBuiltinInstructions kind
  instrById := mdsBuildBuiltinInstructions kind

section Patterns

/-- What a pattern demands of one operand. -/
structure MDSOperandConstraint where
  mustBeConst : Bool
  mustBeReg : Bool
  mustBeImm : Bool
  bitWidth : Nat
  deriving DecidableEq, Repr

/-- A selection pattern for one opcode, without a root if its memory could not be had. -/
structure MDSPattern where
  root : Option (MALOpcode × List MDSOperandConstraint)
  emitInstrs : List Nat
  cost : Int
  deriving DecidableEq, Repr

/-- A selector is its patterns for the instructions of a machine. -/
structure MDSInstrSelector where
  machine : MDSMachine
  patterns : List MDSPattern
  deriving DecidableEq, Repr

def mdsOperandBitWidth : MALType → Nat
  | .i1 => 1
  | .i8 => 8
  | .i16 => 16
  | .i32 | .f32 => 32
  | .i64 | .ptr | .f64 => 64
  | .vec => 128
  | .void => 0

def mdsIsImmediate (operand : MALOperand) : Bool :=
  match operand.payload with
  | .immInt _ | .immFloat _ => true
  | _ => false

def MALOperand.isReg (operand : MALOperand) : Bool :=
  match operand.payload with
  | .reg _ => true
  | _ => false

def mdsMatchOperandConstraint (expected : MDSOperandConstraint) (operand : MALOperand) : Bool :=
  (!expected.mustBeConst || mdsIsImmediate operand) &&
    (!expected.mustBeReg || operand.isReg) &&
    (!expected.mustBeImm || mdsIsImmediate operand) &&
    -- A width of zero on either side is not compared.
    !(expected.bitWidth != 0 && mdsOperandBitWidth operand.type != 0 &&
      expected.bitWidth < mdsOperandBitWidth operand.type)

def mdsPatternMatchesInst (pattern : MDSPattern) (inst : MALInst) : Bool :=
  match pattern.root with
  | none => false
  | some (opcode, expected) =>
    opcode == inst.opcode && expected.length == inst.operands.length &&
      (expected.zip inst.operands).all fun pair => mdsMatchOperandConstraint pair.1 pair.2

/-- The demands of a built-in pattern: its first input, and its last one where it has two. -/
def mdsBuiltinConstraints (count : Nat) (firstInputReg lastInputImm : Bool) :
    List MDSOperandConstraint :=
  (List.range count).map fun index =>
    match index with
    | 0 => ⟨count == 1 && lastInputImm, firstInputReg, count == 1 && lastInputImm, 64⟩
    | 1 => ⟨lastInputImm, !lastInputImm, lastInputImm, 64⟩
    | _ => ⟨false, false, false, 0⟩

def mdsFindInstructionByMnemonic (machine : MDSMachine) (mnemonic : String) :
    Option MDSInstruction :=
  machine.instructions.find? (·.mnemonic == mnemonic)

/-- Add a pattern for a built-in instruction, if the machine has it. -/
def mdsAddBuiltinPattern (selector : MDSInstrSelector) (opcode : MALOpcode) (suffix : String)
    (firstInputReg lastInputImm : Bool) : MDSInstrSelector :=
  match mdsFindInstructionByMnemonic selector.machine
    (mdsBuildMnemonic selector.machine.targetKind suffix) with
  | none => selector
  | some instr =>
    -- The destination is not an input of the opcode.
    let outputs := if (instr.operands.head?.map (·.isOutput)).getD false then 1 else 0
    let constraints :=
      mdsBuiltinConstraints (instr.operands.length - outputs) firstInputReg lastInputImm
    { selector with
      patterns := selector.patterns ++
        [⟨some (opcode, constraints), [instr.id], instr.selectionCost⟩] }

/-- Opcode, suffix and operand demands of the built-in patterns, in the order they are added. -/
def mdsPatternTable : List (MALOpcode × String × Bool × Bool) :=
  [(.copy, "mov.rr", true, false), (.copy, "mov.ri", false, true),
    (.add, "add.rr", true, false), (.add, "add.ri", true, true),
    (.sub, "sub.rr", true, false), (.sub, "sub.ri", true, true),
    (.mul, "mul.rr", true, false), (.neg, "neg", true, false),
    (.and, "and.rr", true, false), (.or, "or.rr", true, false), (.xor, "xor.rr", true, false),
    (.not, "not", true, false), (.shl, "shl.ri", true, true), (.ashr, "ashr.ri", true, true),
    (.icmpEq, "icmp.eq", true, false), (.icmpNe, "icmp.ne", true, false),
    (.icmpSlt, "icmp.slt", true, false), (.icmpSle, "icmp.sle", true, false),
    (.icmpSgt, "icmp.sgt", true, false), (.icmpSge, "icmp.sge", true, false),
    (.ret, "ret", true, false)]

def mdsLoadPatterns (selector : MDSInstrSelector) : MDSInstrSelector :=
  mdsPatternTable.foldl
    (fun selector entry => mdsAddBuiltinPattern selector entry.1 entry.2.1 entry.2.2.1 entry.2.2.2)
    selector

def mdsCreateSelector (machine : MDSMachine) : MDSInstrSelector := mdsLoadPatterns ⟨machine, []⟩

/-- The cheapest matching pattern, and the first of several that cost the same. -/
def mdsSelectBestPattern (selector : MDSInstrSelector) (inst : MALInst) : Option MDSPattern :=
  selector.patterns.foldl
    (fun best pattern =>
      if mdsPatternMatchesInst pattern inst then
        match best with
        | none => some pattern
        | some current => if pattern.cost < current.cost then some pattern else some current
      else best)
    none

end Patterns

section Lowering

/-- A selected instruction: its descriptor, if it has one, and its operands. -/
structure MDSInst where
  desc : Option MDSInstruction
  operands : List MALOperand
  deriving DecidableEq, Repr

structure MDSBasicBlock where
  id : Nat
  instructions : List MDSInst
  successors : List Nat
  deriving DecidableEq, Repr

structure MDSProgram where
  machine : Option MDSMachine
  blocks : List MDSBasicBlock
  deriving DecidableEq, Repr

/-- The instructions of a program in block and instruction order. -/
def MDSProgram.insts (program : MDSProgram) : List MDSInst :=
  program.blocks.flatMap (·.instructions)

def mdsDescFromPattern (selector : MDSInstrSelector) (pattern : MDSPattern) :
    Option MDSInstruction :=
  pattern.emitInstrs.head?.bind fun id => selector.machine.instrById[id]?

/-- The destination of an instruction as an operand, if the instruction has one and the descriptor
starts with an output. -/
def mdsDestination (desc : MDSInstruction) (inst : MALInst) : List MALOperand :=
  match desc.operands with
  | [] => []
  | first :: _ =>
    if inst.dst = malInvalidReg then []
    else if first.isOutput then [malOperandReg inst.dst inst.type] else []

/-- A selected instruction has the destination and the operands of the source instruction. -/
def mdsBuildSelectedInst (selector : MDSInstrSelector) (inst : MALInst) : Option MDSInst := do
  let pattern ← mdsSelectBestPattern selector inst
  let desc ← mdsDescFromPattern selector pattern
  return ⟨some desc, mdsDestination desc inst ++ inst.operands⟩

def mdsLowerBlock (selector : MDSInstrSelector) (block : MALBlock) : Option MDSBasicBlock :=
  (block.insts.mapM (mdsBuildSelectedInst selector)).map fun instructions =>
    ⟨block.id, instructions, block.succs⟩

/-- Lower all blocks of all functions, which fails if any instruction cannot be selected. A
selector is created where none is given. -/
def mdsLowerFromMAL (module : MALModule) (selector : Option MDSInstrSelector)
    (machine : MDSMachine) : Option MDSProgram :=
  ((module.functions.flatMap (·.blocks)).mapM
    (mdsLowerBlock (selector.getD (mdsCreateSelector machine)))).map fun blocks =>
    ⟨some machine, blocks⟩

end Lowering

end Wirble
