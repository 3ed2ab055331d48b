import Wirble.Mal.Execute
import Mathlib.Logic.Function.Basic

/-! What straight-line integer instructions denote, with comparisons that yield truth values. -/

namespace Wirble

/-- The values of registers: integers, and the results of comparisons. -/
inductive MALValue where
  | int (value : BitVec 32)
  | truth (value : Bool)
  deriving DecidableEq, Repr

def MALValue.isInt : MALValue → Bool
  | int _ => true
  | truth _ => false

/-- Two's complement meaning of the comparisons on operands of one width. -/
def malCompare {width : Nat} : MALOpcode → List (BitVec width) → Option Bool
  | .icmpEq, [x, y] => some (x == y)
  | .icmpNe, [x, y] => some (x != y)
  | .icmpSlt, [x, y] => some (x.slt y)
  | .icmpSle, [x, y] => some (x.sle y)
  | .icmpSgt, [x, y] => some (y.slt x)
  | .icmpSge, [x, y] => some (y.sle x)
  | _, _ => none

/-- An opcode on words of one width, whose values are given by the words. -/
def malDenoteWords {width : Nat} (value : BitVec width → MALValue) (opcode : MALOpcode)
    (words : List (BitVec width)) : Option MALValue :=
  ((malIntegerOp opcode words).map value).or ((malCompare opcode words).map .truth)

/-- What an opcode denotes: truth values are integers of one bit, and widths do not mix. -/
def malDenote (opcode : MALOpcode) : List MALValue → Option MALValue
  | [.int x] => malDenoteWords .int opcode [x]
  | [.int x, .int y] => malDenoteWords .int opcode [x, y]
  | [.truth x] => malDenoteWords (fun word => .truth (word == 1#1)) opcode [BitVec.ofBool x]
  | [.truth x, .truth y] =>
    malDenoteWords (fun word => .truth (word == 1#1)) opcode [BitVec.ofBool x, BitVec.ofBool y]
  | _ => none

/-- The value of an integer immediate, or of a register that holds one. -/
def malOperandValue (regs : Nat → Option MALValue) (operand : MALOperand) : Option MALValue :=
  match operand.payload with
  | .reg reg => regs reg.toNat
  | .immInt value => some (.int (value.setWidth 32))
  | _ => none

/-- The values of the operands of an instruction. -/
def malInputs (regs : Nat → Option MALValue) (inst : MALInst) : Option (List MALValue) :=
  inst.operands.mapM (malOperandValue regs)

/-- The registers before the instruction at a place, if control gets there and every instruction
before it denotes a value. -/
def malRegsBefore (insts : List MALInst) (regs : Nat → Option MALValue) :
    Nat → Option (Nat → Option MALValue)
  | 0 => some regs
  | place + 1 => do
    let regs ← malRegsBefore insts regs place
    let inst ← insts[place]?
    -- Nothing comes after a return.
    if inst.opcode = .ret then none
    else
      let inputs ← malInputs regs inst
      let value ← malDenote inst.opcode inputs
      return Function.update regs inst.dst (some value)

end Wirble
