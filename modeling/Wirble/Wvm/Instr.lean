import Wirble.Library.Bytes

/-! The instruction words of the virtual machine, their opcodes and the fields of each encoding. -/

namespace Wirble

/-- The opcodes in the order of their numbers. -/
inductive WVMOpcode where
  | nop | halt | return | call | tailcall | jump | jumpIfTrue | jumpIfFalse | move | loadConst
  | loadImm | loadNil | loadTrue | loadFalse | add | sub | mul | div | mod | neg | inc | dec | and
  | or | xor | not | shl | shr | eq | ne | lt | le | gt | ge | loadGlobal | storeGlobal | loadUpval
  | storeUpval | loadField | storeField | newTable | getIndex | setIndex | getLen | closure
  | guardType | guardTrue | guardFalse | guardNotNil | guardClass | guardRange | guardResource
  | push | pop | toInt | toFloat | toString | toBool
  deriving DecidableEq, Repr

/-- How the operands of an instruction are laid out in its word. -/
inductive WVMEncodingType where
  | op | opR | opRr | opRrr | opRImm16 | opRImm32 | opRConst | opRrConst | opRStr | opJump
  | opRJump | opRrJump | opGuard
  deriving DecidableEq, Repr

/-- All opcodes, so that the opcode of number `n` stands at position `n`. -/
def wvmOpcodes : List WVMOpcode :=
  [.nop, .halt, .return, .call, .tailcall, .jump, .jumpIfTrue, .jumpIfFalse, .move, .loadConst,
    .loadImm, .loadNil, .loadTrue, .loadFalse, .add, .sub, .mul, .div, .mod, .neg, .inc, .dec,
    .and, .or, .xor, .not, .shl, .shr, .eq, .ne, .lt, .le, .gt, .ge, .loadGlobal, .storeGlobal,
    .loadUpval, .storeUpval, .loadField, .storeField, .newTable, .getIndex, .setIndex, .getLen,
    .closure, .guardType, .guardTrue, .guardFalse, .guardNotNil, .guardClass, .guardRange,
    .guardResource, .push, .pop, .toInt, .toFloat, .toString, .toBool]

/-- The number of opcodes, `WVM_OP_COUNT`. -/
def wvmOpCount : Nat := wvmOpcodes.length

/-- The table of encodings. -/
def wvmOpcodeEncodings : WVMOpcode → WVMEncodingType
  | .nop | .halt => .op
  | .return | .loadNil | .loadTrue | .loadFalse | .inc | .dec | .newTable | .push | .pop => .opR
  | .call | .tailcall | .add | .sub | .mul | .div | .mod | .and | .or | .xor | .shl | .shr | .eq
  | .ne | .lt | .le | .gt | .ge | .getIndex | .setIndex => .opRrr
  | .jump => .opJump
  | .jumpIfTrue | .jumpIfFalse => .opRJump
  | .move | .neg | .not | .getLen | .toInt | .toFloat | .toString | .toBool => .opRr
  | .loadConst | .loadGlobal | .storeGlobal | .closure => .opRConst
  | .loadImm => .opRImm32
  | .loadUpval | .storeUpval => .opRImm16
  | .loadField | .storeField => .opRrConst
  | .guardType | .guardTrue | .guardFalse | .guardNotNil | .guardClass | .guardRange
  | .guardResource => .opGuard

section

variable (instr : BitVec 64)

/-- The number of the opcode of an instruction, `WVM_DECODE_OP`. -/
def wvmDecodeOp : Nat := (instr &&& 0xFF#64).toNat

/-- The first register of an instruction, `WVM_DECODE_R_A`. -/
def wvmDecodeRA : BitVec 16 := ((instr >>> 8) &&& 0xFFFF#64).setWidth 16

def wvmDecodeRB : BitVec 16 := ((instr >>> 24) &&& 0xFFFF#64).setWidth 16

def wvmDecodeRC : BitVec 16 := ((instr >>> 40) &&& 0xFFFF#64).setWidth 16

/-- The index of a constant, `WVM_DECODE_CONST`. -/
def wvmDecodeConst : BitVec 32 := ((instr >>> 24) &&& 0xFFFFFFFF#64).setWidth 32

/-- The opcode of an instruction, which only some numbers are. -/
def wvmOpcodeOf : Option WVMOpcode := wvmOpcodes[wvmDecodeOp instr]?

/-- The encoding that belongs to an opcode number. -/
def wvmGetEncoding (op : Nat) : WVMEncodingType :=
  (wvmOpcodes[op]?.map wvmOpcodeEncodings).getD .op

end

end Wirble
