import Wirble.Mal.Lower
import Wirble.Mal.Execute
import Wirble.Wil.Integers
import Mathlib.Logic.Function.Basic

/-! Execution of one block of instructions over integers of any width. -/

namespace Wirble

open IntValue

/-- Two's complement meaning of the opcodes, undefined on operands of the wrong width. -/
def malOperator : MALOpcode → List (Option IntValue) → Option IntValue
  | .copy, [x] => x
  | .add, [x, y] => binary (fun _ x y => x + y) x y
  | .sub, [x, y] => binary (fun _ x y => x - y) x y
  | .mul, [x, y] => binary (fun _ x y => x * y) x y
  | .sdiv, [x, y] => binary (fun _ x y => Word.div x y) x y
  | .srem, [x, y] => binary (fun _ x y => Word.mod x y) x y
  | .neg, [x] => unary (fun _ x => -x) x
  | .and, [x, y] => binary (fun _ x y => x &&& y) x y
  | .or, [x, y] => binary (fun _ x y => x ||| y) x y
  | .xor, [x, y] => binary (fun _ x y => x ^^^ y) x y
  | .not, [x] => unary (fun _ x => ~~~x) x
  | .shl, [x, y] => binary (fun _ x y => Word.shl x y) x y
  | .ashr, [x, y] => binary (fun _ x y => Word.shr x y) x y
  | .icmpEq, [x, y] => compare (fun _ x y => x == y) x y
  | .icmpNe, [x, y] => compare (fun _ x y => x != y) x y
  | .icmpSlt, [x, y] => compare (fun _ x y => x.slt y) x y
  | .icmpSle, [x, y] => compare (fun _ x y => x.sle y) x y
  | .icmpSgt, [x, y] => compare (fun _ x y => y.slt x) x y
  | .icmpSge, [x, y] => compare (fun _ x y => y.sle x) x y
  | .select, [condition, x, y] => select condition x y
  -- An opcode of the target says nothing about the operation.
  | _, _ => none

/-- The contents of registers, where a register without a value is undefined. -/
abbrev MALRegisters := Nat → Option IntValue

/-- An integer immediate has the width of its type. -/
def malOperandInteger (regs : MALRegisters) (operand : MALOperand) : Option IntValue :=
  match operand.payload with
  | .reg reg => regs reg.toNat
  | .immInt value => some ⟨operand.type.width, value.setWidth _⟩
  | _ => none

/-- The registers behind one instruction. -/
def malExecInteger (regs : MALRegisters) (inst : MALInst) : MALRegisters :=
  match inst.defines with
  | none => regs
  | some dst =>
    Function.update regs dst (malOperator inst.opcode (inst.operands.map (malOperandInteger regs)))

/-- The registers behind instructions that do not return. -/
def malRegsAfter (regs : MALRegisters) (insts : List MALInst) : MALRegisters :=
  insts.foldl malExecInteger regs

/-- What the first return among the instructions returns. -/
def malReturned (regs : MALRegisters) : List MALInst → Option IntValue
  | [] => none
  | inst :: rest =>
    if inst.opcode = .ret then inst.operands.head?.bind (malOperandInteger regs)
    else malReturned (malExecInteger regs inst) rest

/-- The registers of a function's parameters hold the arguments when it is entered. -/
def MALFunction.arguments (fn : MALFunction) (params : Nat → BitVec 32) : MALRegisters := fun reg =>
  if reg < fn.paramCount then some ⟨32, params reg⟩ else none

/-- The last instruction is executed last. -/
theorem malRegsAfter_append (regs : MALRegisters) (front : List MALInst) (inst : MALInst) :
    malRegsAfter regs (front ++ [inst]) = malExecInteger (malRegsAfter regs front) inst := by
  simp [malRegsAfter]

/-- Instructions in front of the first return only change the registers it reads. -/
theorem malReturned_append (regs : MALRegisters) {front : List MALInst}
    (others : ∀ inst ∈ front, inst.opcode ≠ .ret) (rest : List MALInst) :
    malReturned regs (front ++ rest) = malReturned (malRegsAfter regs front) rest := by
  -- Induction on the instructions in front, from any registers.
  induction front generalizing regs with
  | nil => rfl
  | cons inst front next =>
    have other : inst.opcode ≠ .ret := others inst List.mem_cons_self
    rw [List.cons_append, malReturned, if_neg other]
    exact next _ fun later member => others later (List.mem_cons_of_mem inst member)

/-- A return ends the run with its operand. -/
theorem malReturned_ret (regs : MALRegisters) {inst : MALInst} (ret : inst.opcode = .ret)
    (rest : List MALInst) :
    malReturned regs (inst :: rest) = inst.operands.head?.bind (malOperandInteger regs) := by
  rw [malReturned, if_pos ret]

/-- Lowering gives every integer operator but one the opcode of its meaning. -/
theorem malOperator_fromWIL {kind : WILNodeKind} {type : WILType} (operator : kind.arity.isSome)
    (integer : type.isFloat = false) (inputs : List (Option IntValue)) :
    malOperator (malOpcodeFromWIL kind type) inputs =
      if kind = .abs then none else wilOperator kind inputs := by
  -- The two tables agree line by line, and the target's opcode has no line.
  cases kind with
  | add | sub | mul | div | neg | abs =>
    simp only [malOpcodeFromWIL, integer, Bool.false_eq_true, if_false, reduceCtorEq, if_true]
    rcases inputs with _ | ⟨x, _ | ⟨y, _ | ⟨z, rest⟩⟩⟩ <;> rfl
  | mod | and | or | xor | shl | shr | not | eq | ne | lt | le | gt | ge | select =>
    simp only [malOpcodeFromWIL, reduceCtorEq, if_false]
    rcases inputs with _ | ⟨x, _ | ⟨y, _ | ⟨z, _ | ⟨w, rest⟩⟩⟩⟩ <;> rfl
  | _ => cases operator

/-- No operator becomes a return. -/
theorem malOpcodeFromWIL_ne_ret {kind : WILNodeKind} (operator : kind.arity.isSome)
    (type : WILType) : malOpcodeFromWIL kind type ≠ .ret := by
  cases kind with
  | add | sub | mul | div | neg | abs =>
    -- The opcode depends on whether the type is one of floats.
    simp only [malOpcodeFromWIL]
    split <;> decide
  | mod | and | or | xor | shl | shr | not | eq | ne | lt | le | gt | ge | select =>
    simp only [malOpcodeFromWIL]
    decide
  | _ => cases operator

end Wirble
