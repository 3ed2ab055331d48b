import Wirble.Wvm.Runtime
import Wirble.Tos.Stream

/-! The encoding of instruction streams as bytecode. -/

namespace Wirble

/-- The number of an opcode. -/
def WVMOpcode.code (op : WVMOpcode) : BitVec 64 := BitVec.ofNat 64 op.ctorIdx

def wvmEncodeOpR (op : WVMOpcode) (a : BitVec 16) : BitVec 64 :=
  op.code ||| a.setWidth 64 <<< 8

def wvmEncodeOpRr (op : WVMOpcode) (a b : BitVec 16) : BitVec 64 :=
  op.code ||| a.setWidth 64 <<< 8 ||| b.setWidth 64 <<< 24

def wvmEncodeOpRrr (op : WVMOpcode) (a b c : BitVec 16) : BitVec 64 :=
  op.code ||| a.setWidth 64 <<< 8 ||| b.setWidth 64 <<< 24 ||| c.setWidth 64 <<< 40

/-- An immediate and the index of a constant stand in the same place. -/
def wvmEncodeOpRImm32 (op : WVMOpcode) (a : BitVec 16) (imm : BitVec 32) : BitVec 64 :=
  op.code ||| a.setWidth 64 <<< 8 ||| imm.setWidth 64 <<< 24

def wvmEncodeOpRConst (op : WVMOpcode) (a : BitVec 16) (index : BitVec 32) : BitVec 64 :=
  wvmEncodeOpRImm32 op a index

/-- The bytecode and the constants emitted so far. -/
structure WVMEncodeBuilder where
  instrs : List (BitVec 64)
  consts : List (BitVec 64)
  scratchReg : BitVec 16
  regCount : BitVec 16

section Emit

/-- The largest capacity of a growing array, which doubles as a number of 32 bits. -/
def wvmBuilderCapacity : Nat := 2 ^ 31

def wvmBuilderAppendInstr (builder : WVMEncodeBuilder) (instr : BitVec 64) :
    Option WVMEncodeBuilder :=
  if builder.instrs.length < wvmBuilderCapacity then
    some { builder with instrs := builder.instrs ++ [instr] }
  else none

def wvmBuilderAppendConst (builder : WVMEncodeBuilder) (value : BitVec 64) :
    Option (WVMEncodeBuilder × BitVec 32) :=
  if builder.consts.length < wvmBuilderCapacity then
    some ({ builder with consts := builder.consts ++ [value] },
      BitVec.ofNat 32 builder.consts.length)
  else none

/-- The register that holds an operand, where an immediate is loaded into the scratch register. -/
def wvmOperandToReg (builder : WVMEncodeBuilder) (operand : MALOperand) :
    Option (WVMEncodeBuilder × BitVec 16) :=
  let scratch := builder.scratchReg
  -- Other immediates go through the constant pool.
  let load (value : BitVec 64) : Option (WVMEncodeBuilder × BitVec 16) := do
    let (builder, index) ← wvmBuilderAppendConst builder value
    let builder ← wvmBuilderAppendInstr builder (wvmEncodeOpRConst .loadConst scratch index)
    return (builder, scratch)
  match operand.payload with
  | .reg reg => some (builder, reg.setWidth 16)
  | .immInt value =>
    if -2 ^ 31 ≤ value.toInt ∧ value.toInt ≤ 2 ^ 31 - 1 then do
      let builder ← wvmBuilderAppendInstr builder
        (wvmEncodeOpRImm32 .loadImm scratch (value.setWidth 32))
      return (builder, scratch)
    else load (wvmValueFromInt (value.setWidth 32))
  | .immFloat value => load value
  | _ => none

/-- Whether a name is one of an instruction for the four targets. -/
def wvmNamed (name suffix : String) : Bool :=
  name == "x64." ++ suffix || name == "generic." ++ suffix || name == "a64." ++ suffix ||
    name == "wasm." ++ suffix

/-- Whether one string occurs in another. -/
def strstr (haystack needle : String) : Bool :=
  haystack.toList.tails.any (needle.toList.isPrefixOf ·)

/-- The parts of names that are looked for, in this order. -/
def wvmEmitBin : List (String × WVMOpcode) :=
  [("add.", .add), ("sub.", .sub), ("mul.", .mul), ("and.", .and), ("or.", .or), ("xor.", .xor),
    ("shl.", .shl), ("ashr.", .shr), ("icmp.eq", .eq), ("icmp.ne", .ne), ("icmp.slt", .lt),
    ("icmp.sle", .le), ("icmp.sgt", .gt), ("icmp.sge", .ge)]

/-- The opcode of the first part that occurs in a name. -/
def wvmBinaryOf (name : String) : Option WVMOpcode :=
  (wvmEmitBin.find? fun entry => strstr name entry.1).map (·.2)

/-- Emit the bytecode of one instruction of the stream. -/
def wvmEmitFromMnemonic (builder : WVMEncodeBuilder) (inst : TOSInst) :
    Option WVMEncodeBuilder := do
  let desc ← inst.desc
  let name := desc.mnemonic
  if wvmNamed name "mov.rr" then
    match inst.operands with
    | [⟨_, .reg dst⟩, source] =>
      let (builder, rhs) ← wvmOperandToReg builder source
      wvmBuilderAppendInstr builder (wvmEncodeOpRr .move (dst.setWidth 16) rhs)
    | _ => none
  else if wvmNamed name "mov.ri" then
    match inst.operands with
    | [⟨_, .reg dst⟩, source] =>
      let (builder, rhs) ← wvmOperandToReg builder source
      if rhs = dst.setWidth 16 then some builder
      else wvmBuilderAppendInstr builder (wvmEncodeOpRr .move (dst.setWidth 16) rhs)
    | _ => none
  else if wvmNamed name "ret" then
    match inst.operands with
    | [source] =>
      let (builder, value) ← wvmOperandToReg builder source
      wvmBuilderAppendInstr builder (wvmEncodeOpR .return value)
    | _ => none
  else
    match inst.operands with
    | ⟨_, .reg dst⟩ :: first :: rest =>
      let (builder, lhs) ← wvmOperandToReg builder first
      if wvmNamed name "neg" then
        wvmBuilderAppendInstr builder (wvmEncodeOpRr .neg (dst.setWidth 16) lhs)
      else if wvmNamed name "not" then
        wvmBuilderAppendInstr builder (wvmEncodeOpRr .not (dst.setWidth 16) lhs)
      else
        match rest with
        | [] => none
        | second :: _ =>
          let (builder, rhs) ← wvmOperandToReg builder second
          let op ← wvmBinaryOf name
          wvmBuilderAppendInstr builder (wvmEncodeOpRrr op (dst.setWidth 16) lhs rhs)
    | _ => none

/-- The largest register that an instruction names, or the given one. -/
def wvmMaxReg (program : TOSProgram) : Nat :=
  (program.instructions.flatMap (·.operands)).foldl
    (fun largest operand => max largest (operand.reg?.getD 0)) 0

/-- One register more than the program names is left for the scratch register. -/
def wvmComputeRegCount (program : TOSProgram) : BitVec 16 :=
  if wvmMaxReg program ≥ 65534 then 65535 else BitVec.ofNat 16 (wvmMaxReg program + 2)

/-- Nothing has been emitted yet. -/
def wvmBuilderStart (program : TOSProgram) : WVMEncodeBuilder where
  instrs := []
  consts := []
  scratchReg := wvmComputeRegCount program - 1
  regCount := wvmComputeRegCount program

/-- `wvmPrototypeFromTOS`, where no name or source stands for the defaults. -/
def wvmPrototypeFromTOS (program : TOSProgram) (name source : Option CString) :
    Option WVMPrototype := do
  let builder ← program.instructions.foldlM wvmEmitFromMnemonic (wvmBuilderStart program)
  let builder ←
    if builder.instrs.length = 0 then wvmBuilderAppendInstr builder WVMOpcode.halt.code
    else some builder
  return {
    name := some (name.getD (cString ("main".toUTF8.data.toList.map (·.toBitVec))))
    source := some (source.getD (cString ("<tos>".toUTF8.data.toList.map (·.toBitVec))))
    instrCount := BitVec.ofNat 32 builder.instrs.length
    instrs := some builder.instrs
    constCount := BitVec.ofNat 32 builder.consts.length
    consts := some builder.consts
    strCount := 0, strs := none, upvalCount := 0, upvalIsLocal := none, upvalIndex := none
    regCount := builder.regCount, paramCount := 0, isVararg := 0, protoCount := 0, protos := none
    lineMap := some (List.replicate builder.instrs.length 0) }

end Emit

end Wirble
