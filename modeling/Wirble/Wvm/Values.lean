import Wirble.Mal.Straight
import Wirble.Wvm.Runtime

/-! How the interpreter represents values, and which opcodes it computes on them. -/

namespace Wirble

/-- The word that stands for a value in a slot of the stack. -/
def wvmValueOf : MALValue → BitVec 64
  | .int value => wvmValueFromInt value
  | .truth value => wvmValueFromBool value

/-- A boxed integer is unboxed to itself. -/
@[simp] theorem wvmAsInt_fromInt (value : BitVec 32) :
    wvmAsInt (wvmValueFromInt value) = value := by
  -- The tag has no bits in the low half.
  have low : wvmTagInt.setWidth 32 = 0#32 := by decide
  rw [wvmAsInt, wvmValueFromInt, BitVec.setWidth_or, low, BitVec.zero_or,
    BitVec.setWidth_setWidth_of_le value (by decide), BitVec.setWidth_eq]

/-- A boxed integer is tagged as an integer. -/
@[simp] theorem wvmIsInt_fromInt (value : BitVec 32) : wvmIsInt (wvmValueFromInt value) = true := by
  -- The value has no bits under the mask of the tag.
  have high : value.setWidth 64 &&& wvmTagMask = 0#64 := by
    refine BitVec.eq_of_getLsbD_eq fun index inside => ?_
    rw [BitVec.getLsbD_and, BitVec.getLsbD_setWidth]
    by_cases small : index < 32
    · have clear : ∀ index < 32, wvmTagMask.getLsbD index = false := by decide
      simp [clear index small]
    · simp [BitVec.getLsbD_of_ge value index (by omega)]
  have tag : wvmTagInt &&& wvmTagMask = wvmTagInt := by decide
  rw [wvmIsInt, wvmValueFromInt, beq_iff_eq, BitVec.and_comm, BitVec.and_or_distrib_left,
    BitVec.and_comm wvmTagMask, tag, BitVec.and_comm wvmTagMask, high, BitVec.or_zero]

/-- A boxed truth value is not tagged as an integer. -/
@[simp] theorem wvmIsInt_fromBool (value : Bool) : wvmIsInt (wvmValueFromBool value) = false := by
  cases value <;> decide

/-- Boxing integers is injective. -/
theorem wvmValueFromInt_inj {x y : BitVec 32} :
    wvmValueFromInt x = wvmValueFromInt y ↔ x = y := by
  constructor
  · intro same
    rw [← wvmAsInt_fromInt x, same, wvmAsInt_fromInt]
  · intro same
    rw [same]

/-- No integer is represented as a truth value. -/
theorem wvmValueFromInt_ne_fromBool (x : BitVec 32) (value : Bool) :
    wvmValueFromInt x ≠ wvmValueFromBool value := by
  intro same
  have tag := congrArg wvmIsInt same
  simp at tag

/-- The opcode that an instruction of two operands is emitted as. -/
def wvmBinaryOpcode : MALOpcode → Option WVMOpcode
  | .add => some .add
  | .sub => some .sub
  | .mul => some .mul
  | .and => some .and
  -- The name of exclusive or contains that of or, which is looked for first.
  | .or | .xor => some .or
  | .shl => some .shl
  | .ashr => some .shr
  | .icmpEq => some .eq
  | .icmpNe => some .ne
  | .icmpSlt => some .lt
  | .icmpSle => some .le
  | .icmpSgt => some .gt
  | .icmpSge => some .ge
  | _ => none

/-- What the emitted instruction computes from the words of its registers, unless it fails. -/
def wvmOutput (opcode : MALOpcode) : List (BitVec 64) → Option (BitVec 64)
  | [x] =>
    match opcode with
    | .copy => some x
    | .neg => some (wvmValueFromInt (-wvmAsInt x))
    | .not => some (wvmValueFromInt (~~~wvmAsInt x))
    | _ => none
  | [x, y] => (wvmBinaryOpcode opcode).bind fun op => wvmExecBinaryInt op x y
  | _ => none

/-- The inputs on which the emitted instruction computes what its opcode denotes: integers, unless
they are only copied, and for exclusive or those that share no bit. -/
def WVMSupports : MALOpcode → List MALValue → Prop
  | .copy, _ => True
  | .xor, [.int x, .int y] => x &&& y = 0#32
  | _, inputs => ∀ input ∈ inputs, input.isInt = true

/-- Inclusive and exclusive or agree where no bit is shared. -/
theorem or_eq_xor_iff (x y : BitVec 32) : x ||| y = x ^^^ y ↔ x &&& y = 0#32 := by
  -- All three words are determined bit by bit.
  have single : ∀ p q : Bool, (p || q) = (p ^^ q) ↔ (p && q) = false := by decide
  have bits : ∀ index, (x ||| y).getLsbD index = (x ^^^ y).getLsbD index ↔
      (x &&& y).getLsbD index = (0#32).getLsbD index := by
    intro index
    rw [BitVec.getLsbD_or, BitVec.getLsbD_xor, BitVec.getLsbD_and, BitVec.getLsbD_zero]
    exact single _ _
  constructor
  · intro same
    exact BitVec.eq_of_getLsbD_eq fun index _ => (bits index).mp (by rw [same])
  · intro apart
    exact BitVec.eq_of_getLsbD_eq fun index _ => (bits index).mpr (by rw [apart])

/-- On one integer the emitted instruction computes what its opcode denotes. -/
theorem wvmOutput_int {opcode : MALOpcode} {x : BitVec 32} {result : MALValue}
    (denoted : malDenote opcode [.int x] = some result) :
    wvmOutput opcode [wvmValueFromInt x] = some (wvmValueOf result) := by
  cases opcode <;> simp only [malDenote, malDenoteWords, malIntegerOp, malCompare, Option.map_some,
    Option.map_none, Option.none_or, Option.some_or, reduceCtorEq, Option.some.injEq] at denoted
  -- What the opcode denotes is what the machine computes, case by case.
  all_goals subst denoted
  all_goals simp [wvmOutput, wvmValueOf]

/-- On two integers it does, unless it is exclusive or of integers that share a bit. -/
theorem wvmOutput_ints {opcode : MALOpcode} {x y : BitVec 32} {result : MALValue}
    (denoted : malDenote opcode [.int x, .int y] = some result) :
    wvmOutput opcode [wvmValueFromInt x, wvmValueFromInt y] = some (wvmValueOf result) ↔
      (opcode = .xor → x &&& y = 0#32) := by
  -- The opcodes are compared by their meanings on words.
  cases opcode <;> simp only [malDenote, malDenoteWords, malIntegerOp, malCompare, Option.map_some,
    Option.map_none, Option.none_or, Option.some_or, reduceCtorEq, Option.some.injEq] at denoted
  all_goals subst denoted
  -- The loop of the machine has the inclusive operation under this opcode.
  case xor =>
    have selected : wvmOutput .xor [wvmValueFromInt x, wvmValueFromInt y] =
        some (wvmValueFromInt (x ||| y)) := by
      simp [wvmOutput, wvmBinaryOpcode, wvmExecBinaryInt]
    rw [selected, Option.some.injEq]
    exact (wvmValueFromInt_inj.trans (or_eq_xor_iff x y)).trans (by simp)
  all_goals simp [wvmOutput, wvmBinaryOpcode, wvmExecBinaryInt, wvmValueOf]

/-- A truth value is negated to an integer, which represents no truth value. -/
theorem wvmOutput_truth {opcode : MALOpcode} {x : Bool} {result : MALValue}
    (denoted : malDenote opcode [.truth x] = some result) :
    wvmOutput opcode [wvmValueFromBool x] = some (wvmValueOf result) ↔ opcode = .copy := by
  cases opcode <;> simp only [malDenote, malDenoteWords, malIntegerOp, malCompare, Option.map_some,
    Option.map_none, Option.none_or, Option.some_or, reduceCtorEq, Option.some.injEq] at denoted
  all_goals subst denoted
  -- Copies keep the boxed truth value, and negations box an integer.
  case copy => cases x <;> decide
  all_goals simp [wvmOutput, wvmValueOf, wvmValueFromInt_ne_fromBool]

/-- Operations on two integers fail on truth values. -/
theorem wvmOutput_truths (opcode : MALOpcode) (x y : Bool) :
    wvmOutput opcode [wvmValueFromBool x, wvmValueFromBool y] = none := by
  simp [wvmOutput, wvmExecBinaryInt]

/-- Only lists of one or two values of one sort have a denotation. -/
theorem malDenote_cases {opcode : MALOpcode} {inputs : List MALValue} {result : MALValue}
    (denoted : malDenote opcode inputs = some result) :
    (∃ x, inputs = [.int x]) ∨ (∃ x y, inputs = [.int x, .int y]) ∨ (∃ x, inputs = [.truth x]) ∨
      ∃ x y, inputs = [.truth x, .truth y] := by
  rw [malDenote.eq_def] at denoted
  -- A denotation fixes the number and the sorts of the values.
  split at denoted
  · exact .inl ⟨_, rfl⟩
  · exact .inr (.inl ⟨_, _, rfl⟩)
  · exact .inr (.inr (.inl ⟨_, rfl⟩))
  · exact .inr (.inr (.inr ⟨_, _, rfl⟩))
  · cases denoted

/-- No opcode of two operands copies. -/
theorem malDenote_copy_pair {inputs : List MALValue} {x y : MALValue} {result : MALValue}
    (denoted : malDenote .copy inputs = some result) : inputs ≠ [x, y] := by
  rintro rfl
  cases x <;> cases y <;> simp [malDenote, malDenoteWords, malIntegerOp, malCompare] at denoted

/-- The emitted instruction computes what its opcode denotes exactly on the supported inputs. -/
theorem wvmOutput_eq_iff {opcode : MALOpcode} {inputs : List MALValue} {result : MALValue}
    (denoted : malDenote opcode inputs = some result) :
    wvmOutput opcode (inputs.map wvmValueOf) = some (wvmValueOf result) ↔
      WVMSupports opcode inputs := by
  -- The cases are the types of the inputs for which the opcode denotes anything.
  rcases malDenote_cases denoted with ⟨x, rfl⟩ | ⟨x, y, rfl⟩ | ⟨x, rfl⟩ | ⟨x, y, rfl⟩
  · have supported : WVMSupports opcode [.int x] := by
      cases opcode <;> simp [WVMSupports, MALValue.isInt]
    exact iff_of_true (wvmOutput_int denoted) supported
  · refine (wvmOutput_ints denoted).trans ?_
    cases opcode <;> simp [WVMSupports, MALValue.isInt]
  · refine (wvmOutput_truth denoted).trans ?_
    cases opcode <;> simp [WVMSupports, MALValue.isInt]
  -- Two truth values are an operation's input only outside the machine's own operations.
  · have other : opcode ≠ .copy := by
      rintro rfl
      exact malDenote_copy_pair denoted rfl
    have failed : wvmOutput opcode ([.truth x, .truth y].map wvmValueOf) = none :=
      wvmOutput_truths opcode x y
    rw [failed]
    refine iff_of_false nofun ?_
    cases opcode <;> simp_all [WVMSupports, MALValue.isInt]

end Wirble
