import Mathlib.Algebra.Group.Nat.Defs
import Wirble.Wil.Node

/-! Operands, instructions, blocks and functions of the machine-adjacent language. -/

namespace Wirble

/-- Types of operands and instructions, in the order of the source's enumeration. -/
inductive MALType where
  | void | i1 | i8 | i16 | i32 | i64 | f32 | f64 | ptr | vec
  deriving DecidableEq, Repr

/-- Operation codes, in the order of the source's enumeration. -/
inductive MALOpcode where
  | nop | copy | load | store | loadImm | memcpy | memset
  | add | sub | mul | udiv | sdiv | urem | srem | neg | inc | dec
  | and | or | xor | not | shl | lshr | ashr | rotl | rotr
  | fadd | fsub | fmul | fdiv | frem | fneg | fabs | fsqrt | fma
  | icmpEq | icmpNe | icmpSlt | icmpSle | icmpSgt | icmpSge
  | icmpUlt | icmpUle | icmpUgt | icmpUge
  | fcmpOeq | fcmpOne | fcmpOlt | fcmpOle | fcmpOgt | fcmpOge | fcmpUeq | fcmpUne
  | br | cbr | switch | ret | unreachable
  | phi | select | inlineCall | call | tailcall
  | zext | sext | trunc | fext | ftrunc | bitcast | ptrcast | inttoptr | ptrtoint
  | sitofp | uitofp | fptosi | fptoui
  | alloca | stacksave | stackrestore
  | atomicLoad | atomicStore | atomicRmw | atomicCas
  | vadd | vsub | vmul | vdiv | vshuffle | vextract | vinsert | vbroadcast
  | target
  deriving DecidableEq, Repr

/-- The register number that stands for no destination. -/
def malInvalidReg : Nat := 2 ^ 32 - 1

/-- A pointer to a symbol's name, where the address zero is the null pointer. -/
structure MALNamePointer where
  address : BitVec 64
  text : String
  deriving DecidableEq, Repr

/-- The union of an operand, with the member that the operand's kind selects. -/
inductive MALOperandPayload where
  | reg (reg : BitVec 32)
  | immInt (value : BitVec 64)
  | immFloat (value : DoubleBits)
  | block (id : BitVec 32)
  | globalName (name : MALNamePointer)
  | funcName (name : MALNamePointer)
  | asType (type : MALType)
  | vec (elementType : MALType) (count : BitVec 32)
  deriving DecidableEq, Repr

/-- An operand is a typed member of the union. -/
structure MALOperand where
  type : MALType
  payload : MALOperandPayload
  deriving DecidableEq, Repr

def malOperandReg (reg : Nat) (type : MALType) : MALOperand := ⟨type, .reg (BitVec.ofNat 32 reg)⟩

def malOperandImmInt (value : Int) (type : MALType) : MALOperand :=
  ⟨type, .immInt (BitVec.ofInt 64 value)⟩

def malOperandImmFloat (value : DoubleBits) (type : MALType) : MALOperand :=
  ⟨type, .immFloat value⟩

def malOperandBlock (block : Nat) : MALOperand := ⟨.void, .block (BitVec.ofNat 32 block)⟩

namespace MALOperand

/-- The register an operand reads, if it is a register operand. -/
def reg? (operand : MALOperand) : Option Nat :=
  match operand.payload with
  | .reg reg => some reg.toNat
  | _ => none

/-- The block an operand names, if it is a block operand. -/
def block? (operand : MALOperand) : Option Nat :=
  match operand.payload with
  | .block id => some id.toNat
  | _ => none

/-- The first four bytes of the union, read as a block identifier whatever the kind is. -/
def blockBits (operand : MALOperand) : Nat :=
  match operand.payload with
  | .reg reg => reg.toNat
  | .immInt value => (value.setWidth 32).toNat
  | .immFloat value => (value.setWidth 32).toNat
  | .block id => id.toNat
  | .globalName name | .funcName name => (name.address.setWidth 32).toNat
  | .asType type | .vec type _ => type.ctorIdx

end MALOperand

/-- Names are equal when both are present and their texts agree. -/
def MALNamePointer.equal (lhs rhs : MALNamePointer) : Bool :=
  lhs.address != 0 && rhs.address != 0 && lhs.text == rhs.text

/-- Operands are equal when kind, type and payload agree. -/
def malOperandEqual (lhs rhs : MALOperand) : Bool :=
  lhs.type == rhs.type &&
    match lhs.payload, rhs.payload with
    | .reg x, .reg y => x == y
    | .immInt x, .immInt y => x == y
    | .immFloat x, .immFloat y => x.equal y
    | .block x, .block y => x == y
    | .globalName x, .globalName y => x.equal y
    | .funcName x, .funcName y => x.equal y
    | .asType x, .asType y => x == y
    | .vec x n, .vec y m => x == y && n == m
    | _, _ => false

/-- Only the same integer of the same type equals an integer immediate. -/
theorem malOperandEqual_immInt {value : Int} {type : MALType} {operand : MALOperand} :
    malOperandEqual (malOperandImmInt value type) operand = true ↔
      malOperandImmInt value type = operand := by
  rcases operand with ⟨otherType, payload⟩
  cases payload <;> simp [malOperandEqual, malOperandImmInt]

/-- An instruction writes its destination, unless that is `malInvalidReg`. -/
structure MALInst where
  id : Nat
  opcode : MALOpcode
  type : MALType
  dst : Nat
  operands : List MALOperand
  deriving DecidableEq, Repr

/-- A block is a list of instructions with the edges that control-flow analysis stores. -/
structure MALBlock where
  id : Nat
  insts : List MALInst
  preds : List Nat
  succs : List Nat
  deriving DecidableEq, Repr

/-- A function is its blocks in list order, where the first block is the entry. -/
structure MALFunction where
  name : String
  retType : MALType
  paramTypes : List MALType
  paramCount : Nat
  blocks : List MALBlock
  nextSSAReg : Nat
  deriving DecidableEq, Repr

/-- A module is its functions in list order. -/
structure MALModule where
  functions : List MALFunction
  targetTriple : Option String
  deriving DecidableEq, Repr

/-- The opcodes that end a block. -/
def MALOpcode.isTerminator : MALOpcode → Bool
  | .br | .cbr | .switch | .ret | .unreachable => true
  | _ => false

def malInstIsTerminator (inst : MALInst) : Bool := inst.opcode.isTerminator

namespace MALInst

/-- The registers an instruction reads, in operand order. -/
def reads (inst : MALInst) : List Nat := inst.operands.filterMap MALOperand.reg?

/-- The register an instruction defines, if it has a destination. -/
def defines (inst : MALInst) : Option Nat :=
  if inst.dst = malInvalidReg then none else some inst.dst

end MALInst

/-- The instructions of a function in block-list order. -/
def MALFunction.insts (fn : MALFunction) : List MALInst := fn.blocks.flatMap (·.insts)

/-- The last instruction of a block, if the block has any. -/
def MALBlock.last (block : MALBlock) : Option MALInst := block.insts.getLast?

/-- The position of the first block with the given identifier. -/
def malBlockById (blocks : List MALBlock) (id : Nat) : Option Nat :=
  blocks.findIdx? (·.id == id)

end Wirble
