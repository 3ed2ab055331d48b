import Wirble.Wvm.Prototype
import Wirble.Library.Word

/-! The interpreter of the virtual machine, with a record of every access that it makes. -/

namespace Wirble

/-! Values are words whose high bits are a tag. -/

def wvmTagMask : BitVec 64 := 0xFFFF000000000000#64

def wvmTagInt : BitVec 64 := 0x7FFC000000000000#64

def wvmValueNil : BitVec 64 := 0x7FFD000000000000#64

def wvmValueFalse : BitVec 64 := 0x7FFE000000000000#64

def wvmValueTrue : BitVec 64 := 0x7FFF000000000000#64

def wvmValueFromInt (value : BitVec 32) : BitVec 64 := wvmTagInt ||| value.setWidth 64

def wvmValueFromBool (value : Bool) : BitVec 64 := if value then wvmValueTrue else wvmValueFalse

def wvmIsInt (value : BitVec 64) : Bool := value &&& wvmTagMask == wvmTagInt

def wvmAsInt (value : BitVec 64) : BitVec 32 := value.setWidth 32

/-- Only nil and false are not true. -/
def wvmIsTruthy (value : BitVec 64) : Bool := value != wvmValueNil && value != wvmValueFalse

/-! The fields that only the interpreter reads. -/

def wvmDecodeImm32 (instr : BitVec 64) : BitVec 32 :=
  ((instr >>> 24) &&& 0xFFFFFFFF#64).setWidth 32

/-- The offset of a jump, in two's complement. -/
def wvmDecodeJump (instr : BitVec 64) : BitVec 32 :=
  ((instr >>> 8) &&& 0xFFFFFFFF#64).setWidth 32

/-- The offset of a conditional jump. -/
def wvmDecodeRJump (instr : BitVec 64) : BitVec 32 :=
  ((instr >>> 24) &&& 0xFFFFFFFF#64).setWidth 32

/-- A frame is the place of the instruction that is being executed. -/
structure WVMFrame where
  pc : BitVec 32
  deriving DecidableEq, Repr

/-- The part of the state of a virtual machine that executing a prototype reads or writes. -/
structure WVMState where
  stack : Nat → BitVec 64
  stackSize : BitVec 32
  lastError : Option String
  topFrame : Option WVMFrame
  frameDepth : Nat

/-! What a debugger sees of the frames. -/

def wvmFrameDepth (vm : WVMState) : Nat := vm.frameDepth

/-- The frame at a depth, of which there is only the top one: `wvmExecute` links it to no other. -/
def wvmGetFrame (vm : WVMState) (depth : Nat) : Option WVMFrame :=
  if depth = 0 then vm.topFrame else none

/-- The place of the instruction stands for its line. -/
def wvmFrameLine (frame : Option WVMFrame) : BitVec 32 := (frame.map (·.pc)).getD 0

/-- What the interpreter touches: slots of the stack, constants, and the places it jumps to. -/
inductive WVMAccess where
  | readSlot (slot : Nat)
  | writeSlot (slot : Nat)
  | readConst (index : Nat)
  | jump (target : Nat)
  deriving DecidableEq, Repr

/-- A run of the interpreter, which goes on as long as it has no result. -/
structure WVMRun where
  vm : WVMState
  pc : BitVec 32
  /-- All accesses so far, from the first to the last. -/
  accesses : List WVMAccess
  result : Option Bool

namespace WVMRun

def record (run : WVMRun) (access : WVMAccess) : WVMRun :=
  { run with accesses := run.accesses ++ [access] }

/-- The value of a slot of the stack. -/
def slot (run : WVMRun) (reg : BitVec 16) : BitVec 64 := run.vm.stack reg.toNat

def read (run : WVMRun) (reg : BitVec 16) : WVMRun := run.record (.readSlot reg.toNat)

def write (run : WVMRun) (reg : BitVec 16) (value : BitVec 64) : WVMRun :=
  { run.record (.writeSlot reg.toNat) with
    vm := { run.vm with stack := Function.update run.vm.stack reg.toNat value } }

/-- Go on with the next instruction. -/
def next (run : WVMRun) : WVMRun := { run with pc := run.pc + 1 }

/-- Go on at an offset from the instruction. -/
def jump (run : WVMRun) (offset : BitVec 32) : WVMRun :=
  { run.record (.jump (run.pc + offset).toNat) with pc := run.pc + offset }

/-- Leave the frame with a result. -/
def leave (run : WVMRun) (result : Bool) : WVMRun :=
  { run with vm := { run.vm with topFrame := none, frameDepth := 0 }, result := some result }

/-- Set the text of the error and leave the frame. -/
def fail (run : WVMRun) (text : String) : WVMRun :=
  { run with vm := { run.vm with lastError := some text } }.leave false

section Record

variable (run : WVMRun) (reg : BitVec 16)

/-- An access is recorded at the end. -/
@[simp] theorem accesses_record (access : WVMAccess) :
    (run.record access).accesses = run.accesses ++ [access] := rfl

/-- Reading a register is one access. -/
@[simp] theorem accesses_read :
    (run.read reg).accesses = run.accesses ++ [.readSlot reg.toNat] := rfl

/-- Writing a register is one access. -/
@[simp] theorem accesses_write (value : BitVec 64) :
    (run.write reg value).accesses = run.accesses ++ [.writeSlot reg.toNat] := rfl

/-- Going on to the next place touches nothing. -/
@[simp] theorem accesses_next : run.next.accesses = run.accesses := rfl

/-- A jump is one access, to its target. -/
@[simp] theorem accesses_jump (offset : BitVec 32) :
    (run.jump offset).accesses = run.accesses ++ [.jump (run.pc + offset).toNat] := rfl

/-- Leaving touches nothing. -/
@[simp] theorem accesses_leave (result : Bool) : (run.leave result).accesses = run.accesses := rfl

/-- Failing touches nothing. -/
@[simp] theorem accesses_fail (text : String) : (run.fail text).accesses = run.accesses := rfl

/-- Reading a register stays at the place. -/
@[simp] theorem pc_read : (run.read reg).pc = run.pc := rfl

end Record

end WVMRun

/-- The operations on two integers, which fail on other values. -/
def wvmExecBinaryInt (op : WVMOpcode) (lhs rhs : BitVec 64) : Option (BitVec 64) :=
  if !wvmIsInt lhs || !wvmIsInt rhs then none
  else
    let a := wvmAsInt lhs
    let b := wvmAsInt rhs
    match op with
    | .add => some (wvmValueFromInt (a + b))
    | .sub => some (wvmValueFromInt (a - b))
    | .mul => some (wvmValueFromInt (a * b))
    | .div => some (wvmValueFromInt (Word.div a b))
    | .mod => some (wvmValueFromInt (Word.mod a b))
    | .and => some (wvmValueFromInt (a &&& b))
    | .or => some (wvmValueFromInt (a ||| b))
    | .xor => some (wvmValueFromInt (a ^^^ b))
    | .shl => some (wvmValueFromInt (Word.shl a b))
    | .shr => some (wvmValueFromInt (Word.shr a b))
    | .eq => some (wvmValueFromBool (a == b))
    | .ne => some (wvmValueFromBool (a != b))
    | .lt => some (wvmValueFromBool (a.slt b))
    | .le => some (wvmValueFromBool (a.sle b))
    | .gt => some (wvmValueFromBool (b.slt a))
    | .ge => some (wvmValueFromBool (b.sle a))
    | _ => none

/-- The opcodes of the operations on two integers. -/
def wvmBinaryOpcodes : List WVMOpcode :=
  [.add, .sub, .mul, .div, .mod, .and, .or, .xor, .shl, .shr, .eq, .ne, .lt, .le, .gt, .ge]

/-- Execute an instruction of the given opcode. -/
def wvmExecOp (proto : WVMPrototype) (instr : BitVec 64) (run : WVMRun) (op : WVMOpcode) :
    WVMRun :=
  let a := wvmDecodeRA instr
  let b := wvmDecodeRB instr
  let c := wvmDecodeRC instr
  let constant := (proto.consts.getD []).getD (wvmDecodeConst instr).toNat 0
  match op with
  | .nop => run.next
  | .halt => { run with pc := proto.instrCount }
  | .return =>
    let run := (run.read a).write 0 (run.slot a)
    { run with vm := { run.vm with stackSize := proto.regCount.setWidth 32 } }.leave true
  | .move => ((run.read b).write a (run.slot b)).next
  | .loadImm => (run.write a (wvmValueFromInt (wvmDecodeImm32 instr))).next
  | .loadConst =>
    ((run.record (.readConst (wvmDecodeConst instr).toNat)).write a constant).next
  | .loadNil => (run.write a wvmValueNil).next
  | .loadTrue => (run.write a wvmValueTrue).next
  | .loadFalse => (run.write a wvmValueFalse).next
  | .neg => ((run.read b).write a (wvmValueFromInt (-wvmAsInt (run.slot b)))).next
  | .not => ((run.read b).write a (wvmValueFromInt (~~~wvmAsInt (run.slot b)))).next
  | .jump => run.jump (wvmDecodeJump instr)
  | .jumpIfTrue =>
    if wvmIsTruthy (run.slot a) then (run.read a).jump (wvmDecodeRJump instr)
    else (run.read a).next
  | .jumpIfFalse =>
    if !wvmIsTruthy (run.slot a) then (run.read a).jump (wvmDecodeRJump instr)
    else (run.read a).next
  | op =>
    if op ∈ wvmBinaryOpcodes then
      match wvmExecBinaryInt op (run.slot b) (run.slot c) with
      | some value => (((run.read b).read c).write a value).next
      | none => ((run.read b).read c).fail "unsupported operand type in WVM interpreter"
    else run.fail "opcode is not implemented in the Stage 10 interpreter"

/-- Execute one instruction. -/
def wvmExecInstr (proto : WVMPrototype) (instr : BitVec 64) (run : WVMRun) : WVMRun :=
  match wvmOpcodeOf instr with
  | some op => wvmExecOp proto instr run op
  | none => run.fail "opcode is not implemented in the Stage 10 interpreter"

/-- One round of the loop of `wvmExecute`, or nothing when the run has a result. -/
def wvmStep (proto : WVMPrototype) (run : WVMRun) : WVMRun :=
  if run.result.isSome then run
  else if run.pc < proto.instrCount then
    let frame := { pc := run.pc }
    wvmExecInstr proto ((proto.instrs.getD []).getD run.pc.toNat 0)
      { run with vm := { run.vm with topFrame := some frame } }
  else run.leave true

/-- The state in which the loop of `wvmExecute` starts, unless the verifier refuses. -/
def wvmStart (vm : WVMState) (proto : WVMPrototype) : WVMRun :=
  match wvmVerifyPrototype proto with
  | .error text =>
    { vm := { vm with lastError := some text }, pc := 0, accesses := [], result := some false }
  | .ok () =>
    -- Slots above the old top of the stack start with zeros.
    let cleared slot := if vm.stackSize.toNat ≤ slot ∧ slot < proto.regCount.toNat then 0
      else vm.stack slot
    { vm := { stack := cleared, stackSize := proto.regCount.setWidth 32, lastError := none,
              topFrame := some { pc := 0 }, frameDepth := 1 }
      pc := 0
      accesses := []
      result := none }

/-- `wvmExecute` after the given number of rounds of its loop. -/
def wvmExecute (vm : WVMState) (proto : WVMPrototype) : Nat → WVMRun
  | 0 => wvmStart vm proto
  | rounds + 1 => wvmStep proto (wvmExecute vm proto rounds)

end Wirble
