import Wirble.Mal.Ssa
import Wirble.Library.Word

/-! Execution of functions of integer instructions, over any meaning of the other instructions. -/

namespace Wirble

/-- The bits of a value of a type, where vectors have no scalar value. -/
def MALType.width : MALType → Nat
  | .void | .vec => 0
  | .i1 => 1
  | .i8 => 8
  | .i16 => 16
  | .i32 | .f32 => 32
  | .i64 | .f64 | .ptr => 64

/-- Every scalar value fits into a register. -/
theorem MALType.width_le (type : MALType) : type.width ≤ 64 := by
  cases type <;> decide

/-- What is left open about executing instructions, over a world of memory and devices. -/
structure MALMeaning (World : Type) where
  /-- Whether values of the type widen by their sign or by zeros. -/
  signExtends : MALType → Bool
  /-- The word of an operand that is neither a register nor an integer. -/
  symbol : MALOperand → BitVec 64
  /-- The result of another instruction, from its operands and the block control came from. -/
  other : MALInst → List (BitVec 64) → Nat → World → Option (BitVec 64 × World)
  /-- The identifier of the block a terminator goes to, unless it leaves the function. -/
  jump : MALInst → List (BitVec 64) → World → Option (Nat × World)

/-- Where execution stands, and the contents of all registers. -/
structure MALState (World : Type) where
  block : Nat
  index : Nat
  previous : Nat
  regs : Nat → BitVec 64
  world : World

section Step

variable {World : Type} (meaning : MALMeaning World)

/-- The value of an operand at the width of its own type. -/
def malOwnWord (regs : Nat → BitVec 64) (operand : MALOperand) : BitVec operand.type.width :=
  match operand.payload with
  | .reg reg => (regs reg.toNat).setWidth _
  | .immInt value => value.setWidth _
  | _ => (meaning.symbol operand).setWidth _

/-- The value of an operand converted to the given width. -/
def malOperandWord (regs : Nat → BitVec 64) (width : Nat) (operand : MALOperand) : BitVec width :=
  -- Narrowing drops the high bits either way.
  if meaning.signExtends operand.type then (malOwnWord meaning regs operand).signExtend width
  else (malOwnWord meaning regs operand).setWidth width

/-- Two's complement meaning of the integer opcodes on operands of one width. -/
def malIntegerOp {width : Nat} : MALOpcode → List (BitVec width) → Option (BitVec width)
  | .copy, [x] => some x
  | .add, [x, y] => some (x + y)
  | .sub, [x, y] => some (x - y)
  | .mul, [x, y] => some (x * y)
  | .neg, [x] => some (-x)
  | .and, [x, y] => some (x &&& y)
  | .or, [x, y] => some (x ||| y)
  | .xor, [x, y] => some (x ^^^ y)
  | .not, [x] => some (~~~x)
  | .shl, [x, y] => some (Word.shl x y)
  | .ashr, [x, y] => some (Word.shr x y)
  | _, _ => none

/-- The result of an instruction that does not end its block. -/
def malExecInst (regs : Nat → BitVec 64) (previous : Nat) (world : World) (inst : MALInst) :
    Option (BitVec 64 × World) :=
  -- An instruction computes at the width of its own type.
  match malIntegerOp inst.opcode
    (inst.operands.map (malOperandWord meaning regs inst.type.width)) with
  | some result => some (result.setWidth 64, world)
  | none => meaning.other inst (inst.operands.map (malOperandWord meaning regs 64)) previous world

/-- Write the destination of an instruction, if it has one. -/
def malWriteReg (regs : Nat → BitVec 64) (inst : MALInst) (value : BitVec 64) : Nat → BitVec 64 :=
  match inst.defines with
  | none => regs
  | some dst => Function.update regs dst value

/-- One step of execution, which fails where the function is left. -/
def malStep (fn : MALFunction) (state : MALState World) : Option (MALState World) := do
  let block ← fn.blocks[state.block]?
  match block.insts[state.index]? with
  | none =>
    -- Control falls through the end of a block into the next one.
    return { state with block := state.block + 1, index := 0, previous := state.block }
  | some inst =>
    if malInstIsTerminator inst then
      let (id, world) ← meaning.jump inst
        (inst.operands.map (malOperandWord meaning state.regs 64)) state.world
      let target ← malBlockById fn.blocks id
      return { state with block := target, index := 0, previous := state.block, world := world }
    else
      let (value, world) ← malExecInst meaning state.regs state.previous state.world inst
      return { state with
        index := state.index + 1, regs := malWriteReg state.regs inst value, world := world }

/-- The state after a number of steps, or where execution has stopped before. -/
def malRun (fn : MALFunction) : Nat → MALState World → MALState World
  | 0, state => state
  | steps + 1, state =>
    match malStep meaning fn state with
    | none => state
    | some next => malRun fn steps next

end Step

end Wirble
