import Wirble.Wvm.Instr
import Mathlib.Data.List.TakeWhile

/-! Function prototypes of the virtual machine and the verifier of their bytecode. -/

namespace Wirble

/-- The text of a C string, which has no zero byte. -/
@[ext] structure CString where
  text : List Byte
  noZero : (0 : Byte) ∉ text

/-- The string that starts with the given bytes and ends at the first zero byte. -/
def cString (bytes : List Byte) : CString where
  text := bytes.takeWhile (· ≠ 0)
  noZero member := by simpa using List.mem_takeWhile_imp member

/-- Bytes without a zero byte are the text of their string. -/
theorem text_cString {bytes : List Byte} (noZero : (0 : Byte) ∉ bytes) :
    (cString bytes).text = bytes := by
  refine List.takeWhile_eq_self_iff.mpr fun byte member => ?_
  rw [decide_eq_true_iff]
  rintro rfl
  exact noZero member

/-- A string object of the string pool, by its contents. -/
structure WVMString where
  data : List Byte
  deriving DecidableEq, Repr

/-- A prototype has counts beside its arrays, and a pointer that is NULL is `none`. -/
structure WVMPrototype where
  name : Option CString
  source : Option CString
  instrCount : BitVec 32
  instrs : Option (List (BitVec 64))
  constCount : BitVec 32
  consts : Option (List (BitVec 64))
  strCount : BitVec 32
  strs : Option (List WVMString)
  upvalCount : BitVec 32
  upvalIsLocal : Option (List (BitVec 8))
  upvalIndex : Option (List (BitVec 16))
  regCount : BitVec 16
  paramCount : BitVec 16
  isVararg : BitVec 8
  protoCount : BitVec 32
  protos : Option (List WVMPrototype)
  lineMap : Option (List (BitVec 32))

/-- The elements that a loop over a count reads from an array. -/
def wvmArray {α : Type} [Inhabited α] (count : BitVec 32) (array : Option (List α)) : List α :=
  (List.range count.toNat).map fun index => (array.getD []).getD index default

/-- The check of one instruction, with the text of the error that it sets. -/
def wvmVerifyInstr (regCount : BitVec 16) (constCount : BitVec 32) (instr : BitVec 64) :
    Except String Unit :=
  if wvmDecodeOp instr ≥ wvmOpCount then .error "prototype contains an invalid opcode"
  else
    match wvmGetEncoding (wvmDecodeOp instr) with
    | .opR =>
      if wvmDecodeRA instr ≥ regCount then .error "prototype references an invalid register"
      else .ok ()
    | .opRr =>
      if wvmDecodeRA instr ≥ regCount ∨ wvmDecodeRB instr ≥ regCount then
        .error "prototype references an invalid register"
      else .ok ()
    | .opRrr =>
      if wvmDecodeRA instr ≥ regCount ∨ wvmDecodeRB instr ≥ regCount ∨
          wvmDecodeRC instr ≥ regCount then
        .error "prototype references an invalid register"
      else .ok ()
    | .opRConst =>
      if wvmDecodeRA instr ≥ regCount ∨ wvmDecodeConst instr ≥ constCount then
        .error "prototype references an invalid constant"
      else .ok ()
    | .opRImm32 =>
      if wvmDecodeRA instr ≥ regCount then .error "prototype references an invalid register"
      else .ok ()
    | _ => .ok ()

/-- The verifier stops at the first instruction that fails its check. -/
def wvmVerifyPrototype (proto : WVMPrototype) : Except String Unit :=
  match proto.instrs with
  | none => .error "prototype is missing bytecode"
  | some instrs =>
    (wvmArray proto.instrCount (some instrs)).forM (wvmVerifyInstr proto.regCount proto.constCount)

/-- An instruction that passes its check. -/
def WVMInstrValid (regCount : BitVec 16) (constCount : BitVec 32) (instr : BitVec 64) : Prop :=
  wvmVerifyInstr regCount constCount instr = .ok ()

instance {regCount : BitVec 16} {constCount : BitVec 32} {instr : BitVec 64} :
    Decidable (WVMInstrValid regCount constCount instr) :=
  inferInstanceAs (Decidable (_ = _))

section Array

variable {α : Type} [Inhabited α]

/-- An array has as many elements as were counted. -/
@[simp] theorem length_wvmArray (count : BitVec 32) (array : Option (List α)) :
    (wvmArray count array).length = count.toNat := by
  simp [wvmArray]

/-- An array of the counted length is read as it is. -/
theorem wvmArray_eq {count : BitVec 32} {array : Option (List α)}
    (counted : (array.getD []).length = count.toNat) : wvmArray count array = array.getD [] := by
  refine List.ext_getElem (by rw [length_wvmArray, counted]) fun index inside there => ?_
  simp [wvmArray, there]

end Array

/-- A word of zeros is `nop`, which every prototype may have. -/
theorem wvmInstrValid_zero (regCount : BitVec 16) (constCount : BitVec 32) :
    WVMInstrValid regCount constCount 0 := rfl

/-- A loop of checks that stops at the first error passes just when all checks pass. -/
theorem forM_eq_ok_iff {α : Type} {check : α → Except String Unit} {list : List α} :
    list.forM check = .ok () ↔ ∀ x ∈ list, check x = .ok () := by
  induction list with
  | nil => simp [List.forM, pure, Except.pure]
  | cons x rest ih =>
    rw [List.forall_mem_cons, ← ih]
    show (check x >>= fun _ => rest.forM check) = _ ↔ _
    -- The first error ends the loop, and otherwise the rest decides.
    cases check x with
    | error text => simp [bind, Except.bind]
    | ok _ => simp [bind, Except.bind]

/-- The verifier accepts a prototype that has code all of whose instructions pass. -/
theorem wvmVerifyPrototype_ok_iff {proto : WVMPrototype} :
    wvmVerifyPrototype proto = .ok () ↔ proto.instrs ≠ none ∧
      ∀ instr ∈ wvmArray proto.instrCount proto.instrs,
        WVMInstrValid proto.regCount proto.constCount instr := by
  rw [wvmVerifyPrototype]
  -- Without an array of code the verifier fails at once.
  cases proto.instrs with
  | none => simp
  | some instrs =>
    rw [forM_eq_ok_iff]
    exact ⟨fun valid => ⟨nofun, valid⟩, fun both => both.2⟩

end Wirble
