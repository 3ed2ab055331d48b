import Wirble.Library.IntRange
import Wirble.Wvm.Arithmetic
import Wirble.Wvm.Values

/-! Ranges of registers, which show before a run that C defines all that it evaluates. -/

namespace Wirble

/-! What is known of a register. -/

/-- What is known of the value of a register. -/
inductive WVMRange where
  | any
  | word (value : BitVec 64)
  /-- An integer of an interval. -/
  | ints (range : IntRange)
  deriving DecidableEq, Repr

namespace WVMRange

/-- The value is as it is known to be. -/
def Has : WVMRange → BitVec 64 → Prop
  | any, _ => True
  | word known, value => value = known
  | ints range, value => wvmIsInt value = true ∧ range.Has (wvmAsInt value).toInt

instance : (known : WVMRange) → (value : BitVec 64) → Decidable (known.Has value)
  | any, _ => inferInstanceAs (Decidable True)
  | word known, value => inferInstanceAs (Decidable (value = known))
  | ints _, _ => inferInstanceAs (Decidable (_ ∧ _))

/-- Whatever is in one range is in the other. -/
def within : WVMRange → WVMRange → Bool
  | _, any => true
  | word value, known => decide (known.Has value)
  | ints range, ints outer => decide (range.Inside outer)
  | _, _ => false

/-- The lower half of the value, read as an integer. -/
def payload : WVMRange → IntRange
  | any => .all 32
  | word value => .point (wvmAsInt value).toInt
  | ints range => range

/-- The value can be an integer. -/
def mayInt : WVMRange → Bool
  | word value => wvmIsInt value
  | _ => true

/-- The value can have the given truth. -/
def mayBe (truth : Bool) : WVMRange → Bool
  | word value => wvmIsTruthy value == truth
  | _ => true

/-- The negation of a value, if it does not overflow. -/
def neg : WVMRange → WVMRange
  | word value => word (wvmValueFromInt (-wvmAsInt value))
  | known => ints known.payload.neg

def not : WVMRange → WVMRange
  | word value => word (wvmValueFromInt (~~~wvmAsInt value))
  | _ => any

/-- The value of an operation on two integers, if it does not overflow. -/
def integer (op : WVMOpcode) (x y : IntRange) : WVMRange :=
  match op with
  | .add => ints (x.add y)
  | .sub => ints (x.sub y)
  | .mul => ints (x.mul y)
  | .div | .mod => ints x.magnitude
  | .shl => ints (x.shl y)
  | .shr => ints x.shr
  -- A mask that is not negative bounds what it leaves.
  | .and => if 0 ≤ y.lo then ints ⟨0, y.hi⟩ else any
  | _ => any

/-- The value of an operation on two registers, or nothing where it refuses them. -/
def binary (op : WVMOpcode) : WVMRange → WVMRange → Option WVMRange
  | word x, word y => (wvmExecBinaryInt op x y).map word
  | x, y => if x.mayInt && y.mayInt then some (integer op x.payload y.payload) else none

end WVMRange

/-- An operation is within its limits on all integers of two intervals. -/
def WVMAllows (op : WVMOpcode) (x y : IntRange) : Prop :=
  match op with
  | .add => (x.add y).Inside (.all 32)
  | .sub => (x.sub y).Inside (.all 32)
  | .mul => (x.mul y).Inside (.all 32)
  | .div | .mod => IntRange.DivFits 32 x y
  | .shl => IntRange.ShlFits 32 x y
  | .shr => IntRange.ShrFits 32 y
  | .neg => x.neg.Inside (.all 32)
  | _ => True

instance (op : WVMOpcode) (x y : IntRange) : Decidable (WVMAllows op x y) := by
  unfold WVMAllows
  split <;> infer_instance

/-! What instructions do to ranges. -/

/-- What an instruction demands of the registers, and where it may go on with which ranges. -/
structure WVMTransfer where
  allowed : Bool
  next : List (BitVec 32 × (Nat → WVMRange))

/-- Where a conditional jump goes on, which is made if its register has the given truth. -/
def wvmTransferBranch (instr : BitVec 64) (pc : BitVec 32) (known : Nat → WVMRange) (taken : Bool) :
    List (BitVec 32 × (Nat → WVMRange)) :=
  let condition := known (wvmDecodeRA instr).toNat
  (if condition.mayBe taken then [(pc + wvmDecodeRJump instr, known)] else []) ++
    if condition.mayBe !taken then [(pc + 1, known)] else []

/-- What an instruction of the given opcode makes of what is known of the registers. -/
def wvmTransferOp (proto : WVMPrototype) (instr : BitVec 64) (pc : BitVec 32)
    (known : Nat → WVMRange) (op : WVMOpcode) : WVMTransfer :=
  let a := (wvmDecodeRA instr).toNat
  let b := (wvmDecodeRB instr).toNat
  let c := (wvmDecodeRC instr).toNat
  let constant := (proto.consts.getD []).getD (wvmDecodeConst instr).toNat 0
  let write (value : WVMRange) := [(pc + 1, Function.update known a value)]
  match op with
  | .nop => ⟨true, [(pc + 1, known)]⟩
  | .move => ⟨true, write (known b)⟩
  | .loadImm => ⟨true, write (.word (wvmValueFromInt (wvmDecodeImm32 instr)))⟩
  | .loadConst => ⟨true, write (.word constant)⟩
  | .loadNil => ⟨true, write (.word wvmValueNil)⟩
  | .loadTrue => ⟨true, write (.word wvmValueTrue)⟩
  | .loadFalse => ⟨true, write (.word wvmValueFalse)⟩
  | .neg => ⟨WVMAllows .neg (known b).payload (.point 0), write (known b).neg⟩
  | .not => ⟨true, write (known b).not⟩
  | .jump => ⟨true, [(pc + wvmDecodeJump instr, known)]⟩
  | .jumpIfTrue => ⟨true, wvmTransferBranch instr pc known true⟩
  | .jumpIfFalse => ⟨true, wvmTransferBranch instr pc known false⟩
  | op =>
    if op ∈ wvmBinaryOpcodes then
      { allowed := !((known b).mayInt && (known c).mayInt) ||
          WVMAllows op (known b).payload (known c).payload
        next := (WVMRange.binary op (known b) (known c)).elim [] write }
    -- Runs end here, or fail.
    else ⟨true, []⟩

/-- What the instruction at a place makes of what is known of the registers. -/
def wvmTransfer (proto : WVMPrototype) (pc : BitVec 32) (known : Nat → WVMRange) : WVMTransfer :=
  match wvmOpcodeOf (proto.instrAt pc) with
  | some op => wvmTransferOp proto (proto.instrAt pc) pc known op
  | none => ⟨true, []⟩

/-- What can be known of the registers at places of the code, in any number of rows for a place.
Nothing is known of a register beyond the end of a row. -/
abbrev WVMRanges := List (BitVec 32 × List WVMRange)

namespace WVMRanges

/-- Some row for the place knows no more of the registers than is given. -/
def Covers (ranges : WVMRanges) (place : BitVec 32) (known : Nat → WVMRange) : Prop :=
  ∃ row ∈ ranges, row.1 = place ∧
    ∀ reg < row.2.length, (known reg).within (row.2.getD reg .any) = true

instance (ranges : WVMRanges) (place : BitVec 32) (known : Nat → WVMRange) :
    Decidable (ranges.Covers place known) :=
  inferInstanceAs (Decidable (∃ _ ∈ _, _ ∧ _))

/-- At each row the instruction is within its limits, and leads to rows where it goes on. -/
def Checked (ranges : WVMRanges) (proto : WVMPrototype) : Prop :=
  ∀ row ∈ ranges, (wvmTransfer proto row.1 (row.2.getD · .any)).allowed = true ∧
    ∀ next ∈ (wvmTransfer proto row.1 (row.2.getD · .any)).next,
      next.1 < proto.instrCount → ranges.Covers next.1 next.2

instance (ranges : WVMRanges) (proto : WVMPrototype) : Decidable (ranges.Checked proto) :=
  inferInstanceAs (Decidable (∀ _ ∈ _, _ ∧ _))

/-- Some row holds of the registers in which a run starts. -/
def Starts (ranges : WVMRanges) (vm : WVMState) (proto : WVMPrototype) : Prop :=
  wvmVerifyPrototype proto = .ok () → 0 < proto.instrCount →
    ∃ row ∈ ranges, row.1 = 0 ∧ ∀ reg < row.2.length, (row.2.getD reg .any).Has
      -- Slots above the old top of the stack start with zeros.
      (if vm.stackSize.toNat ≤ reg ∧ reg < proto.regCount.toNat then 0 else vm.stack reg)

instance (ranges : WVMRanges) (vm : WVMState) (proto : WVMPrototype) :
    Decidable (ranges.Starts vm proto) :=
  inferInstanceAs (Decidable (_ → _ → ∃ _ ∈ _, _ ∧ _))

end WVMRanges

/-! Operations on intervals. -/

section Values

variable {op : WVMOpcode} {a b : BitVec 32}

/-- What C defines is an integer. -/
theorem wvmCInt_fits (known : op = .neg ∨ op ∈ wvmArithmeticOpcodes) {value : Int}
    (defined : wvmCInt op a.toInt b.toInt = some value) : Signed.Fits 32 value := by
  have checked : ∀ {exact : Int}, Signed.checked 32 exact = some value → Signed.Fits 32 value := by
    intro exact result
    rw [Signed.of_checked result]
    exact Signed.checked_isSome.mp (Option.isSome_of_eq_some result)
  have left := Signed.fits_toInt a
  simp only [wvmArithmeticOpcodes, List.mem_cons, List.not_mem_nil, or_false] at known
  rcases known with rfl | rfl | rfl | rfl | rfl | rfl | rfl | rfl
  · exact checked defined
  · exact checked defined
  · exact checked defined
  · exact checked defined
  -- A quotient is zero for a zero divisor, or checked.
  · replace defined : (if b.toInt = 0 then some 0 else Signed.div 32 _ _) = some value := defined
    rw [Signed.div] at defined
    split at defined
    · rw [← Option.some.inj defined]
      decide
    · exact checked defined
  · replace defined : (if b.toInt = 0 then some 0 else Signed.mod 32 _ _) = some value := defined
    split at defined
    · rw [← Option.some.inj defined]
      decide
    · -- The remainder is the one of words.
      obtain ⟨quotient, -, rfl⟩ := Option.map_eq_some_iff.mp defined
      rw [← BitVec.toInt_srem]
      exact Signed.fits_toInt _
  · replace defined : (if _ then Signed.checked 32 _ else none) = some value := defined
    split at defined
    · exact checked defined
    · cases defined
  · replace defined : (if _ then some _ else none) = some value := defined
    split at defined
    · rw [← Option.some.inj defined]
      exact IntRange.has_shr (a := .all 32) left _
    · cases defined

/-- What C defines is between the bounds. -/
theorem wvmCInt_has {x y : IntRange} (known : op ∈ wvmArithmeticOpcodes) {value : Int}
    (left : x.Has a.toInt) (right : y.Has b.toInt)
    (defined : wvmCInt op a.toInt b.toInt = some value) :
    ∃ range, WVMRange.integer op x y = .ints range ∧ range.Has value := by
  simp only [wvmArithmeticOpcodes, List.mem_cons, List.not_mem_nil, or_false] at known
  -- Sums, differences and products are between sums, differences and products of the bounds.
  rcases known with rfl | rfl | rfl | rfl | rfl | rfl | rfl
  · exact ⟨_, rfl, Signed.of_checked defined ▸ IntRange.has_add left right⟩
  · exact ⟨_, rfl, Signed.of_checked defined ▸ IntRange.has_sub left right⟩
  · exact ⟨_, rfl, Signed.of_checked defined ▸ IntRange.has_mul left right⟩
  · refine ⟨_, rfl, ?_⟩
    -- Quotients and remainders are no larger than the dividend, and zero for a divisor of zero.
    replace defined : (if b.toInt = 0 then some 0 else Signed.div 32 _ _) = some value := defined
    rw [Signed.div] at defined
    split at defined
    · exact Option.some.inj defined ▸ x.has_magnitude_zero
    · exact Signed.of_checked defined ▸ IntRange.has_tdiv left
  · refine ⟨_, rfl, ?_⟩
    replace defined : (if b.toInt = 0 then some 0 else Signed.mod 32 _ _) = some value := defined
    split at defined
    · exact Option.some.inj defined ▸ x.has_magnitude_zero
    · obtain ⟨quotient, -, rfl⟩ := Option.map_eq_some_iff.mp defined
      exact IntRange.has_tmod left
  · refine ⟨_, rfl, ?_⟩
    -- Shifts are defined for the counts of the ranges only.
    replace defined : (if _ then Signed.checked 32 _ else none) = some value := defined
    split at defined
    · next count => exact Signed.of_checked defined ▸ IntRange.has_shl left right count.2.2
    · cases defined
  · refine ⟨_, rfl, ?_⟩
    replace defined : (if _ then some _ else none) = some value := defined
    split at defined
    · exact Option.some.inj defined ▸ IntRange.has_shr left _
    · cases defined

/-- Operations that are allowed on intervals are within their limits on all integers of these. -/
theorem WVMAllows.within {x y : IntRange} (allowed : WVMAllows op x y) (left : x.Has a.toInt)
    (right : y.Has b.toInt) : WVMWithin op a.toInt b.toInt := by
  have fitsA := Signed.fits_toInt a
  have fitsB := Signed.fits_toInt b
  -- A result that fits is what the guards see beforehand.
  cases op with
  | add =>
    exact (Signed.add_isSome fitsA).mp
      (Signed.checked_isSome.mpr (allowed.fits (IntRange.has_add left right)))
  | sub =>
    exact (Signed.sub_isSome fitsA).mp
      (Signed.checked_isSome.mpr (allowed.fits (IntRange.has_sub left right)))
  | mul =>
    exact Signed.mul_isSome.mp
      (Signed.checked_isSome.mpr (allowed.fits (IntRange.has_mul left right)))
  | neg =>
    exact (Signed.neg_isSome fitsA).mp
      (Signed.checked_isSome.mpr (allowed.fits (IntRange.has_neg left)))
  -- Division and the shifts are checked by their own conditions.
  | div | mod => exact allowed.sound left right
  | shl => exact allowed.sound left right
  | shr => exact allowed.sound right
  | _ => trivial

/-- On single integers nothing is lost. -/
theorem wvmAllows_point (within : WVMWithin op a.toInt b.toInt) :
    WVMAllows op (.point a.toInt) (.point b.toInt) := by
  have fitsA := Signed.fits_toInt a
  have fitsB := Signed.fits_toInt b
  cases op with
  | add => exact Signed.checked_isSome.mp ((Signed.add_isSome fitsA).mpr within)
  | sub => exact Signed.checked_isSome.mp ((Signed.sub_isSome fitsA).mpr within)
  | mul =>
    show (IntRange.mul _ _).Inside _
    -- The product of points is a point, and so are the sum, the difference and the negation.
    rw [IntRange.point_mul]
    exact Signed.checked_isSome.mp (Signed.mul_isSome.mpr within)
  | neg => exact Signed.checked_isSome.mp ((Signed.neg_isSome fitsA).mpr within)
  | div | mod => exact (IntRange.divFits_point fitsA).mpr within
  | shl | shr => exact within
  | _ => trivial

end Values

/-! Values that are as they are known to be. -/

namespace WVMRange

variable {known known' : WVMRange} {value value' : BitVec 64} {op : WVMOpcode}

/-- The payload of a value is in the range known of it. -/
theorem Has.payload (has : known.Has value) : known.payload.Has (wvmAsInt value).toInt := by
  cases known with
  | any => exact Signed.fits_toInt _
  | word => exact has ▸ IntRange.has_point
  | ints => exact has.2

/-- A value tagged as an integer may be one. -/
theorem Has.mayInt (has : known.Has value) (int : wvmIsInt value = true) :
    known.mayInt = true := by
  cases known with
  | word other =>
    cases has
    exact int
  | any | ints => rfl

/-- A value is true or false only where it may be. -/
theorem Has.mayBe (has : known.Has value) : known.mayBe (wvmIsTruthy value) = true := by
  cases known with
  | word other =>
    cases has
    exact beq_self_eq_true _
  | any | ints => rfl

/-- What is known of a value may be widened. -/
theorem Has.within (has : known.Has value) (within : known.within known' = true) :
    known'.Has value := by
  cases known' with
  | any => trivial
  -- A known word is inside only where it is that word, and a range where it has its numbers.
  | word other =>
    cases known with
    | word => exact has ▸ of_decide_eq_true within
    | any | ints => cases within
  | ints outer =>
    cases known with
    | word => exact has ▸ of_decide_eq_true within
    | ints range => exact ⟨has.1, (of_decide_eq_true within).has has.2⟩
    | any => cases within

/-- A negation that does not overflow. -/
theorem Has.neg (has : known.Has value)
    (within : WVMWithin .neg (wvmAsInt value).toInt (0#32).toInt) :
    known.neg.Has (wvmValueFromInt (-wvmAsInt value)) := by
  -- The negation is defined, so its integer is the negated one.
  obtain ⟨exact_, defined⟩ := Option.isSome_iff_exists.mp
    ((@wvmCInt_isSome .neg (wvmAsInt value) 0 (.inl rfl)).mpr within)
  have negated : known.payload.neg.Has (-wvmAsInt value).toInt := by
    rw [← Signed.neg_word _ defined, Signed.toInt_of_checked (by decide) defined,
      Signed.of_checked defined]
    exact IntRange.has_neg has.payload
  have ints : ∀ range, range.Has (-wvmAsInt value).toInt →
      (WVMRange.ints range).Has (wvmValueFromInt (-wvmAsInt value)) := by
    intro range inside
    refine ⟨wvmIsInt_fromInt _, ?_⟩
    rw [wvmAsInt_fromInt]
    exact inside
  -- A known word is negated, and all else becomes a range.
  cases known with
  | any => exact ints _ negated
  | word other =>
    cases has
    rfl
  | ints range => exact ints _ negated

/-- The complement of a value is known. -/
theorem Has.not (has : known.Has value) : known.not.Has (wvmValueFromInt (~~~wvmAsInt value)) := by
  cases known with
  | word other =>
    cases has
    rfl
  | any | ints => trivial

/-- An operation on two integers that is within its limits. -/
theorem integer_has {x y : IntRange} (left : x.Has (wvmAsInt value).toInt)
    (right : y.Has (wvmAsInt value').toInt) (int : wvmIsInt value = true)
    (int' : wvmIsInt value' = true)
    (within : WVMWithin op (wvmAsInt value).toInt (wvmAsInt value').toInt) {result : BitVec 64}
    (computed : wvmExecBinaryInt op value value' = some result) :
    (integer op x y).Has result := by
  by_cases arithmetic : op ∈ wvmArithmeticOpcodes
  · -- C defines the result, which lies between the bounds.
    obtain ⟨exact_, defined⟩ :=
      Option.isSome_iff_exists.mp ((wvmCInt_isSome (.inr arithmetic)).mpr within)
    obtain ⟨range, shape, inside⟩ := wvmCInt_has arithmetic left right defined
    have fits := wvmCInt_fits (.inr arithmetic) defined
    rw [wvmExecBinaryInt_defined arithmetic int int' defined] at computed
    rw [shape, ← Option.some.inj computed]
    refine ⟨wvmIsInt_fromInt _, ?_⟩
    have top : exact_ < 2 ^ (32 - 1) := Int.lt_of_le_of_lt fits.2 (by decide)
    rw [wvmAsInt_fromInt, BitVec.toInt_ofInt_eq_self (by decide) fits.1 top]
    exact inside
  -- A mask without sign bounds the result.
  · by_cases mask : op = .and
    · subst mask
      rw [wvmExecBinaryInt, int, int'] at computed
      rw [← Option.some.inj computed]
      unfold integer
      dsimp only
      split
      · next positive =>
        refine ⟨wvmIsInt_fromInt _, ?_⟩
        rw [wvmAsInt_fromInt]
        -- The mask has no sign, and the masked word is no larger.
        have sign : 0 ≤ (wvmAsInt value').toInt := Int.le_trans positive right.1
        have clear : 2 * (wvmAsInt value').toNat < 2 ^ 32 := by
          rw [BitVec.toInt_eq_toNat_cond] at sign
          have bound := (wvmAsInt value').isLt
          split at sign <;> omega
        have small : (wvmAsInt value &&& wvmAsInt value').toNat ≤ (wvmAsInt value').toNat := by
          rw [BitVec.toNat_and]
          exact Nat.and_le_right
        rw [BitVec.toInt_eq_toNat_of_lt (by omega)]
        have top := right.2
        rw [BitVec.toInt_eq_toNat_of_lt clear] at top
        exact ⟨Int.natCast_nonneg _, by show (_ : Int) ≤ y.hi; omega⟩
      · trivial
    -- Of any other operation nothing is known.
    · have unknown : integer op x y = any := by
        cases op <;> first | rfl | exact absurd (by decide) arithmetic | exact absurd rfl mask
      rw [unknown]
      trivial

/-- An operation on two registers that is within its limits where both hold integers. -/
theorem binary_has (left : known.Has value) (right : known'.Has value')
    (within : wvmIsInt value = true → wvmIsInt value' = true →
      WVMWithin op (wvmAsInt value).toInt (wvmAsInt value').toInt) {result : BitVec 64}
    (computed : wvmExecBinaryInt op value value' = some result) :
    ∃ known'', binary op known known' = some known'' ∧ known''.Has result := by
  have ints : wvmIsInt value = true ∧ wvmIsInt value' = true := by
    cases int : wvmIsInt value with
    | false => simp [wvmExecBinaryInt, int] at computed
    | true =>
      cases int' : wvmIsInt value' with
      | false => simp [wvmExecBinaryInt, int'] at computed
      | true => exact ⟨rfl, rfl⟩
  obtain ⟨int, int'⟩ := ints
  have may : (known.mayInt && known'.mayInt) = true := by
    rw [left.mayInt int, right.mayInt int']
    rfl
  have inside := integer_has left.payload right.payload int int' (within int int') computed
  -- Two single values are computed on, and other ranges are not.
  have other : (if known.mayInt && known'.mayInt then some (integer op known.payload known'.payload)
      else none) = some (integer op known.payload known'.payload) := if_pos may
  cases known with
  | word x =>
    cases known' with
    | word y =>
      cases left
      cases right
      exact ⟨word result, by rw [binary, computed]; rfl, rfl⟩
    | any | ints => exact ⟨_, other, inside⟩
  | any | ints => exact ⟨_, other, inside⟩

end WVMRange

/-! One round. -/

/-- All registers are as they are known to be. -/
def WVMKnown (known : Nat → WVMRange) (stack : Nat → BitVec 64) : Prop :=
  ∀ reg, (known reg).Has (stack reg)

/-- The operands that an opcode finds in its source registers are within its limits. -/
def OperandsWithin (instr : BitVec 64) (run : WVMRun) (op : WVMOpcode) : Prop :=
  let x := run.slot (wvmDecodeRB instr)
  let y := run.slot (wvmDecodeRC instr)
  (op = .neg → WVMWithin .neg (wvmAsInt x).toInt 0) ∧
    (op ∈ wvmArithmeticOpcodes → wvmIsInt x = true → wvmIsInt y = true →
      WVMWithin op (wvmAsInt x).toInt (wvmAsInt y).toInt)

section Rounds

variable {proto : WVMPrototype} {instr : BitVec 64} {run : WVMRun} {op : WVMOpcode}
  {known : Nat → WVMRange} {stack : Nat → BitVec 64}

/-- A register that is written is known by what was written. -/
theorem WVMKnown.update (holds : WVMKnown known stack) {value : WVMRange} {word : BitVec 64}
    (has : value.Has word) (reg : Nat) :
    WVMKnown (Function.update known reg value) (Function.update stack reg word) := by
  intro other
  -- The register is the one that was written, or as before.
  by_cases same : other = reg
  · subst same
    rw [Function.update_self, Function.update_self]
    exact has
  · rw [Function.update_of_ne same, Function.update_of_ne same]
    exact holds other

/-- The jump is followed when the register may be as the branch wants it. -/
theorem mem_branch_taken {pc : BitVec 32} {taken : Bool}
    (may : (known (wvmDecodeRA instr).toNat).mayBe taken = true) :
    (pc + wvmDecodeRJump instr, known) ∈ wvmTransferBranch instr pc known taken := by
  rw [wvmTransferBranch, if_pos may]
  exact List.mem_append_left _ (.head _)

/-- The next place is followed when the register may be otherwise. -/
theorem mem_branch_next {pc : BitVec 32} {taken : Bool}
    (may : (known (wvmDecodeRA instr).toNat).mayBe (!taken) = true) :
    (pc + 1, known) ∈ wvmTransferBranch instr pc known taken := by
  rw [wvmTransferBranch, if_pos may]
  exact List.mem_append_right _ (.head _)

/-- A single value decides a conditional jump. -/
theorem wvmTransferBranch_word {value : BitVec 64}
    (single : known (wvmDecodeRA instr).toNat = .word value) (pc : BitVec 32) (taken : Bool) :
    wvmTransferBranch instr pc known taken =
      [(if wvmIsTruthy value = taken then pc + wvmDecodeRJump instr else pc + 1, known)] := by
  simp only [wvmTransferBranch, single, WVMRange.mayBe]
  cases wvmIsTruthy value <;> cases taken <;> rfl

/-- A binary operation writes what is known of its result. -/
theorem wvmTransferOp_binary (binary : op ∈ wvmBinaryOpcodes) (pc : BitVec 32) :
    wvmTransferOp proto instr pc known op =
      { allowed := !((known (wvmDecodeRB instr).toNat).mayInt &&
            (known (wvmDecodeRC instr).toNat).mayInt) ||
          WVMAllows op (known (wvmDecodeRB instr).toNat).payload
            (known (wvmDecodeRC instr).toNat).payload
        next := (WVMRange.binary op (known (wvmDecodeRB instr).toNat)
            (known (wvmDecodeRC instr).toNat)).elim [] fun value =>
          [(pc + 1, Function.update known (wvmDecodeRA instr).toNat value)] } := by
  simp only [wvmBinaryOpcodes, List.mem_cons, List.not_mem_nil, or_false] at binary
  -- The cases of the definition agree for all binary opcodes.
  rcases binary with rfl | rfl | rfl | rfl | rfl | rfl | rfl | rfl | rfl | rfl | rfl | rfl | rfl |
    rfl | rfl | rfl <;> rfl

/-- What is allowed on ranges is within the limits on the registers. -/
theorem WVMKnown.operandsWithin (holds : WVMKnown known run.vm.stack)
    (allowed : (wvmTransferOp proto instr run.pc known op).allowed = true) :
    OperandsWithin instr run op := by
  constructor
  · rintro rfl
    exact @WVMAllows.within .neg _ 0 _ (.point 0) (of_decide_eq_true allowed) (holds _).payload
      IntRange.has_point
  · intro arithmetic int int'
    have binary : op ∈ wvmBinaryOpcodes := by
      have listed : wvmArithmeticOpcodes ⊆ wvmBinaryOpcodes := by decide
      exact listed arithmetic
    rw [wvmTransferOp_binary binary] at allowed
    have left := holds (wvmDecodeRB instr).toNat
    have right := holds (wvmDecodeRC instr).toNat
    -- Both can be integers, since both are.
    rw [left.mayInt int, right.mayInt int'] at allowed
    exact (of_decide_eq_true allowed).within left.payload right.payload

/-- Two integers are within the limits of any binary operation. -/
theorem OperandsWithin.binary (within : OperandsWithin instr run op)
    (binary : op ∈ wvmBinaryOpcodes)
    (int : wvmIsInt (run.slot (wvmDecodeRB instr)) = true)
    (int' : wvmIsInt (run.slot (wvmDecodeRC instr)) = true) :
    WVMWithin op (wvmAsInt (run.slot (wvmDecodeRB instr))).toInt
      (wvmAsInt (run.slot (wvmDecodeRC instr))).toInt := by
  by_cases arithmetic : op ∈ wvmArithmeticOpcodes
  · exact within.2 arithmetic int int'
  · -- The other operations have no limits.
    cases op <;> trivial

/-- Where an instruction goes on, it is known to go on, with what is known there. -/
theorem wvmExecOp_transfer (holds : WVMKnown known run.vm.stack)
    (allowed : (wvmTransferOp proto instr run.pc known op).allowed = true)
    (goes : (wvmExecOp proto instr run op).result = none)
    (still : (wvmExecOp proto instr run op).pc < proto.instrCount) :
    ∃ known', ((wvmExecOp proto instr run op).pc, known') ∈
        (wvmTransferOp proto instr run.pc known op).next ∧
      WVMKnown known' (wvmExecOp proto instr run op).vm.stack := by
  have within := holds.operandsWithin allowed
  by_cases binary : op ∈ wvmBinaryOpcodes
  · rw [wvmTransferOp_binary binary]
    rw [wvmExecOp_binary binary] at goes still ⊢
    cases computed : wvmExecBinaryInt op (run.slot (wvmDecodeRB instr))
        (run.slot (wvmDecodeRC instr)) with
    | none =>
      rw [computed] at goes
      cases goes
    | some result =>
      -- The result has the range that the transfer gives.
      obtain ⟨value, found, has⟩ := WVMRange.binary_has (holds (wvmDecodeRB instr).toNat)
        (holds (wvmDecodeRC instr).toNat) (within.binary binary) computed
      rw [found]
      exact ⟨_, .head _, holds.update has _⟩
  · cases op
    -- Everything but a jump goes on behind the instruction.
    case nop => exact ⟨known, .head _, holds⟩
    case halt => exact absurd still (BitVec.lt_irrefl _)
    case move => exact ⟨_, .head _, holds.update (holds _) _⟩
    case loadImm | loadConst | loadNil | loadTrue | loadFalse =>
      exact ⟨_, .head _, holds.update (show (WVMRange.word _).Has _ from rfl) _⟩
    case neg => exact ⟨_, .head _, holds.update ((holds _).neg (within.1 rfl)) _⟩
    case not => exact ⟨_, .head _, holds.update (holds _).not _⟩
    case jump => exact ⟨known, .head _, holds⟩
    -- The jump is made or not.
    case jumpIfTrue =>
      have may := (holds (wvmDecodeRA instr).toNat).mayBe
      rw [wvmExecOp] at still ⊢
      split
      · next truthy =>
        have taken := (show wvmIsTruthy (run.vm.stack _) = true from truthy) ▸ may
        exact ⟨known, mem_branch_taken taken, holds⟩
      · next falsy =>
        have passed := (show wvmIsTruthy (run.vm.stack _) = false from
          Bool.eq_false_of_not_eq_true falsy) ▸ may
        exact ⟨known, mem_branch_next passed, holds⟩
    -- The other jump is decided by the opposite truth.
    case jumpIfFalse =>
      have may := (holds (wvmDecodeRA instr).toNat).mayBe
      rw [wvmExecOp] at still ⊢
      cases truth : wvmIsTruthy (run.slot (wvmDecodeRA instr)) with
      | false =>
        have taken := (show wvmIsTruthy (run.vm.stack _) = false from truth) ▸ may
        exact ⟨known, mem_branch_taken taken, holds⟩
      | true =>
        have passed := (show wvmIsTruthy (run.vm.stack _) = true from truth) ▸ may
        exact ⟨known, mem_branch_next passed, holds⟩
    -- The other instructions end the run.
    all_goals first
      | exact absurd (by decide) binary
      | cases goes

/-- A register that is written with a single value holds it, and the others hold theirs. -/
theorem words_update (words : ∀ reg < 2 ^ 16, known reg = .word (stack reg)) (target : Nat)
    (value : BitVec 64) :
    ∀ reg < 2 ^ 16, Function.update known target (.word value) reg =
      .word (Function.update stack target value reg) := by
  intro reg small
  -- The register is the one that was written, or as before.
  by_cases same : reg = target
  · rw [same, Function.update_self, Function.update_self]
  · rw [Function.update_of_ne same, Function.update_of_ne same, words reg small]

/-- From single values a binary operation leads to its single result. -/
theorem wvmTransferOp_words_binary (binary : op ∈ wvmBinaryOpcodes)
    (words : ∀ reg < 2 ^ 16, known reg = .word (run.vm.stack reg)) (going : run.result = none)
    (within : OperandsWithin instr run op) :
    (wvmTransferOp proto instr run.pc known op).allowed = true ∧
      ∀ next ∈ (wvmTransferOp proto instr run.pc known op).next,
        (wvmExecOp proto instr run op).result = none ∧
        (wvmExecOp proto instr run op).pc = next.1 ∧
        ∀ reg < 2 ^ 16, next.2 reg = .word ((wvmExecOp proto instr run op).vm.stack reg) := by
  have b : known (wvmDecodeRB instr).toNat = .word (run.slot (wvmDecodeRB instr)) :=
    words _ (wvmDecodeRB instr).isLt
  have c : known (wvmDecodeRC instr).toNat = .word (run.slot (wvmDecodeRC instr)) :=
    words _ (wvmDecodeRC instr).isLt
  rw [wvmTransferOp_binary binary, wvmExecOp_binary binary, b, c]
  constructor
  · -- The operation is allowed on two words within its limits.
    show (!(wvmIsInt _ && wvmIsInt _) || decide _) = true
    cases int : wvmIsInt (run.slot (wvmDecodeRB instr)) with
    | false => rfl
    | true =>
      cases int' : wvmIsInt (run.slot (wvmDecodeRC instr)) with
      | false => rfl
      | true => exact decide_eq_true (wvmAllows_point (within.binary binary int int'))
  · intro next among
    rw [WVMRange.binary] at among
    cases computed : wvmExecBinaryInt op (run.slot (wvmDecodeRB instr))
        (run.slot (wvmDecodeRC instr)) with
    | none =>
      rw [computed] at among
      cases among
    | some result =>
      -- The interpreter computes the same result.
      rw [computed] at among
      cases List.mem_singleton.mp among
      exact ⟨going, rfl, words_update words _ result⟩

/-- From single values an instruction leads to single values. -/
theorem wvmTransferOp_words (words : ∀ reg < 2 ^ 16, known reg = .word (run.vm.stack reg))
    (going : run.result = none)
    (within : OperandsWithin instr run op) :
    (wvmTransferOp proto instr run.pc known op).allowed = true ∧
      ∀ next ∈ (wvmTransferOp proto instr run.pc known op).next,
        (wvmExecOp proto instr run op).result = none ∧
        (wvmExecOp proto instr run op).pc = next.1 ∧
        ∀ reg < 2 ^ 16, next.2 reg = .word ((wvmExecOp proto instr run op).vm.stack reg) := by
  have a : known (wvmDecodeRA instr).toNat = .word (run.slot (wvmDecodeRA instr)) :=
    words _ (wvmDecodeRA instr).isLt
  have b : known (wvmDecodeRB instr).toNat = .word (run.slot (wvmDecodeRB instr)) :=
    words _ (wvmDecodeRB instr).isLt
  by_cases binary : op ∈ wvmBinaryOpcodes
  · exact wvmTransferOp_words_binary binary words going within
  -- The other instructions write a word, or leave the registers alone.
  · cases op
    case nop =>
      refine ⟨rfl, fun next among => ?_⟩
      cases List.mem_singleton.mp among
      exact ⟨going, rfl, words⟩
    case move =>
      refine ⟨rfl, fun next among => ?_⟩
      cases List.mem_singleton.mp among
      refine ⟨going, rfl, ?_⟩
      rw [b]
      exact words_update words _ _
    case loadImm | loadConst | loadNil | loadTrue | loadFalse =>
      refine ⟨rfl, fun next among => ?_⟩
      cases List.mem_singleton.mp among
      exact ⟨going, rfl, words_update words _ _⟩
    case neg =>
      constructor
      · show decide (WVMAllows .neg (known _).payload _) = true
        rw [b]
        exact decide_eq_true (@wvmAllows_point .neg _ 0 (within.1 rfl))
      · intro next among
        cases List.mem_singleton.mp among
        refine ⟨going, rfl, ?_⟩
        rw [b]
        exact words_update words _ _
    case not =>
      refine ⟨rfl, fun next among => ?_⟩
      cases List.mem_singleton.mp among
      refine ⟨going, rfl, ?_⟩
      rw [b]
      exact words_update words _ _
    case jump =>
      refine ⟨rfl, fun next among => ?_⟩
      cases List.mem_singleton.mp among
      exact ⟨going, rfl, words⟩
    case jumpIfTrue | jumpIfFalse =>
      refine ⟨rfl, fun next among => ?_⟩
      rw [wvmTransferOp, wvmTransferBranch_word a] at among
      cases List.mem_singleton.mp among
      rw [wvmExecOp]
      cases wvmIsTruthy (run.slot (wvmDecodeRA instr)) <;> exact ⟨going, rfl, words⟩
    -- Where a run ends, nothing follows.
    all_goals first
      | exact absurd (by decide) binary
      | exact ⟨rfl, fun next among => absurd among List.not_mem_nil⟩

/-- The limits of the registers are those of what is evaluated. -/
theorem evaluationWithin_of (within : ∀ op, run.At proto op →
    OperandsWithin (proto.instrAt run.pc) run op) : EvaluationWithin proto run := by
  intro op a b evaluates
  -- What is evaluated is the negation or the operation of the instruction itself.
  cases evaluates with
  | @neg x next inputs =>
    rw [next.inputs_unary rfl] at inputs
    cases inputs
    exact (within _ next).1 rfl
  | @binary op x y next arithmetic inputs left right =>
    have binary : wvmArithmeticOpcodes ⊆ wvmBinaryOpcodes := by decide
    rw [next.inputs_binary (binary arithmetic)] at inputs
    cases inputs
    exact (within _ next).2 arithmetic left right

/-- The operands of the instruction that is next are within the limits. -/
theorem EvaluationWithin.operands (within : EvaluationWithin proto run) (next : run.At proto op) :
    OperandsWithin (proto.instrAt run.pc) run op := by
  constructor
  · rintro rfl
    exact within .neg _ 0 (.neg next (next.inputs_unary rfl))
  · intro arithmetic left right
    have binary : wvmArithmeticOpcodes ⊆ wvmBinaryOpcodes := by decide
    exact within op _ _ (.binary next arithmetic (next.inputs_binary (binary arithmetic)) left right)

end Rounds

/-! Whole runs. -/

namespace WVMRanges

/-- If a run is at an instruction, some row for that place holds of the registers. -/
def Reached (ranges : WVMRanges) (proto : WVMPrototype) (run : WVMRun) : Prop :=
  run.result = none → run.pc < proto.instrCount →
    ∃ row ∈ ranges, row.1 = run.pc ∧ WVMKnown (row.2.getD · .any) run.vm.stack

section Runs

variable {ranges : WVMRanges} {proto : WVMPrototype} {run : WVMRun}

/-- One of the rows at a place describes the registers there. -/
theorem Covers.known {place : BitVec 32} {known : Nat → WVMRange} {stack : Nat → BitVec 64}
    (covers : ranges.Covers place known) (holds : WVMKnown known stack) :
    ∃ row ∈ ranges, row.1 = place ∧ WVMKnown (row.2.getD · .any) stack := by
  obtain ⟨row, among, at_, within⟩ := covers
  refine ⟨row, among, at_, fun reg => ?_⟩
  by_cases inside : reg < row.2.length
  · exact (holds reg).within (within reg inside)
  · -- Nothing is known behind the row.
    dsimp only
    rw [List.getD_eq_getElem?_getD, List.getElem?_eq_none (Nat.le_of_not_lt inside)]
    trivial

/-- The start of a run is covered by the ranges. -/
theorem Starts.reached {vm : WVMState} (starts : ranges.Starts vm proto) :
    ranges.Reached proto (wvmStart vm proto) := by
  intro going inside
  -- Code that the verifier rejects has no start.
  cases verified : wvmVerifyPrototype proto with
  | error text =>
    rw [wvmStart, verified] at going
    cases going
  | ok =>
    rw [wvmStart, verified] at inside ⊢
    obtain ⟨row, among, first, has⟩ := starts verified inside
    refine ⟨row, among, first, fun reg => ?_⟩
    -- Registers beyond the row are not known.
    by_cases listed : reg < row.2.length
    · exact has reg listed
    · dsimp only
      rw [List.getD_eq_getElem?_getD, List.getElem?_eq_none (Nat.le_of_not_lt listed)]
      trivial

/-- At a row that holds, the operands are within the limits. -/
theorem Checked.within (checked : ranges.Checked proto) (reached : ranges.Reached proto run) :
    EvaluationWithin proto run := by
  refine evaluationWithin_of fun op next => ?_
  obtain ⟨row, among, place, holds⟩ := reached next.going next.inside
  have allowed := (checked row among).1
  rw [place, wvmTransfer, next.decoded] at allowed
  exact holds.operandsWithin allowed

/-- One round leads from a row that holds to another one. -/
theorem Checked.step (checked : ranges.Checked proto) (reached : ranges.Reached proto run) :
    ranges.Reached proto (wvmStep proto run) := by
  intro goes still
  by_cases going : run.result = none
  · by_cases inside : run.pc < proto.instrCount
    · obtain ⟨framed, stack, pc, result, step⟩ := wvmStep_at going inside
      -- The state is at an instruction, for which the table has a row that holds.
      obtain ⟨row, among, place, holds⟩ := reached going inside
      obtain ⟨allowed, nexts⟩ := checked row among
      rw [step, wvmExecInstr] at goes still ⊢
      rw [place, wvmTransfer] at allowed nexts
      rw [← stack] at holds
      rw [← pc] at allowed nexts goes still ⊢
      cases decoded : wvmOpcodeOf (proto.instrAt framed.pc) with
      | none =>
        rw [decoded] at goes
        cases goes
      | some op =>
        rw [decoded] at allowed nexts goes still
        -- The row behind the instruction is in the table.
        obtain ⟨known, leads, after⟩ := wvmExecOp_transfer holds allowed goes still
        exact (nexts _ leads still).known after
    · -- Behind the code a run ends.
      rw [wvmStep, if_neg (by simp [going]), if_neg inside] at goes
      cases goes
  · rw [wvmStep, if_pos (Option.isSome_iff_ne_none.mpr going)] at goes
    exact absurd goes going

/-- Whatever is checked holds of the registers in all rounds of a run. -/
theorem Checked.reached {vm : WVMState} (checked : ranges.Checked proto)
    (starts : ranges.Starts vm proto) (rounds : Nat) :
    ranges.Reached proto (wvmExecute vm proto rounds) := by
  -- Induction on the rounds.
  induction rounds with
  | zero => exact starts.reached
  | succ rounds reached => exact checked.step reached

end Runs

/-! A table of the states of a run. -/

/-- The row of the place and of the first registers. -/
def row (regs : Nat) (run : WVMRun) : BitVec 32 × List WVMRange :=
  (run.pc, (List.range regs).map fun reg => .word (run.vm.stack reg))

/-- The row of a run knows every register exactly. -/
theorem row_getD {regs reg : Nat} (run : WVMRun) (small : reg < regs) :
    (row regs run).2.getD reg .any = .word (run.vm.stack reg) := by
  rw [row, List.getD_eq_getElem?_getD, List.getElem?_map, List.getElem?_range small]
  rfl

/-- There are finitely many rows, since there are finitely many places and words. -/
theorem finite_rows (regs : Nat) : (Set.range (row regs)).Finite := by
  -- Places and words are finitely many, and a row is determined by a place and its registers.
  have : Finite (BitVec 32) := .of_injective BitVec.toFin fun _ _ => BitVec.toFin_inj.mp
  have : Finite (BitVec 64) := .of_injective BitVec.toFin fun _ _ => BitVec.toFin_inj.mp
  let listed (state : BitVec 32 × (Fin regs → BitVec 64)) : BitVec 32 × List WVMRange :=
    (state.1, (List.range regs).map fun reg =>
      .word (if small : reg < regs then state.2 ⟨reg, small⟩ else 0))
  refine (Set.finite_range listed).subset ?_
  -- The row of a run is listed for its place and its registers.
  rintro _ ⟨run, rfl⟩
  refine ⟨(run.pc, fun reg => run.vm.stack reg.val), Prod.ext rfl ?_⟩
  refine List.map_congr_left fun reg among => ?_
  rw [dif_pos (List.mem_range.mp among)]

/-- A row has an entry for each register. -/
theorem length_row (regs : Nat) (run : WVMRun) : (row regs run).2.length = regs := by
  rw [row, List.length_map, List.length_range]

/-- The row of a run describes its registers. -/
theorem row_has {regs reg : Nat} (run : WVMRun) (small : reg < (row regs run).2.length) :
    ((row regs run).2.getD reg .any).Has (run.vm.stack reg) := by
  rw [row_getD run (length_row regs run ▸ small)]
  rfl

/-- The row of a run holds wherever the registers are known to be as they are. -/
theorem covers_row {ranges : WVMRanges} {regs : Nat} {run : WVMRun} {known : Nat → WVMRange}
    (among : row regs run ∈ ranges)
    (words : ∀ reg < regs, known reg = .word (run.vm.stack reg)) :
    ranges.Covers run.pc known := by
  refine ⟨_, among, rfl, fun reg small => ?_⟩
  have listed : reg < regs := length_row regs run ▸ small
  rw [row_getD run listed, words reg listed]
  exact decide_eq_true rfl

/-- From the row of a run an instruction within its limits leads to the row of the next round. -/
theorem row_leads {proto : WVMPrototype} {run : WVMRun} (going : run.result = none)
    (inside : run.pc < proto.instrCount) (within : EvaluationWithin proto run) :
    (wvmTransfer proto run.pc ((row (2 ^ 16) run).2.getD · .any)).allowed = true ∧
      ∀ next ∈ (wvmTransfer proto run.pc ((row (2 ^ 16) run).2.getD · .any)).next,
        (wvmStep proto run).result = none ∧ (wvmStep proto run).pc = next.1 ∧
          ∀ reg < 2 ^ 16, next.2 reg = .word ((wvmStep proto run).vm.stack reg) := by
  obtain ⟨framed, stack, pc, result, step⟩ := wvmStep_at going inside
  have words : ∀ reg < 2 ^ 16,
      (row (2 ^ 16) run).2.getD reg .any = .word (framed.vm.stack reg) := by
    intro reg small
    rw [row_getD _ small, stack]
  have slots : run.slot = framed.slot := by
    funext reg
    rw [WVMRun.slot, WVMRun.slot, stack]
  rw [wvmTransfer, step, wvmExecInstr]
  cases decoded : wvmOpcodeOf (proto.instrAt run.pc) with
  | none =>
    -- A word that is no instruction leads nowhere.
    exact ⟨rfl, fun next among => absurd among List.not_mem_nil⟩
  | some op =>
    have limits := within.operands ⟨going, inside, decoded⟩
    rw [OperandsWithin, slots, ← pc] at limits
    rw [← pc]
    exact wvmTransferOp_words words result limits

/-- A run in which all operands are within the limits has a table of its states. -/
theorem exists_of_within {vm : WVMState} {proto : WVMPrototype}
    (within : ∀ rounds, EvaluationWithin proto (wvmExecute vm proto rounds)) :
    ∃ ranges : WVMRanges, ranges.Checked proto ∧ ranges.Starts vm proto := by
  obtain ⟨regs, named⟩ : ∃ regs, regs = 2 ^ 16 := ⟨_, rfl⟩
  -- The states in which the run is at an instruction.
  let states : Set (BitVec 32 × List WVMRange) := { known | ∃ rounds,
    (wvmExecute vm proto rounds).result = none ∧ (wvmExecute vm proto rounds).pc < proto.instrCount ∧
      row regs (wvmExecute vm proto rounds) = known }
  have finite : states.Finite := by
    refine (finite_rows regs).subset ?_
    rintro _ ⟨rounds, -, -, rfl⟩
    exact ⟨_, rfl⟩
  have listed : ∀ known, known ∈ finite.toFinset.toList ↔ known ∈ states := by
    intro known
    rw [Finset.mem_toList, Set.Finite.mem_toFinset]
  refine ⟨finite.toFinset.toList, ?_, ?_⟩
  -- Each state of the run leads to the next one, which is in the table.
  · intro known among
    obtain ⟨rounds, going, inside, rfl⟩ := (listed known).mp among
    obtain ⟨allowed, leads⟩ := row_leads going inside (within rounds)
    rw [← named] at allowed leads
    refine ⟨allowed, fun next follows still => ?_⟩
    obtain ⟨goes, place, words⟩ := leads next follows
    rw [← place] at still ⊢
    exact covers_row ((listed _).mpr ⟨rounds + 1, goes, still, rfl⟩) words
  · intro verified inside
    have start : wvmStart vm proto = wvmExecute vm proto 0 := rfl
    rw [wvmStart, verified] at start
    -- The first state is in the table.
    have among : row regs (wvmExecute vm proto 0) ∈ states := by
      refine ⟨0, ?_, ?_, rfl⟩
      · rw [← start]
      · rw [← start]
        exact inside
    refine ⟨_, (listed _).mpr among, ?_, fun reg small => ?_⟩
    · rw [← start]
      rfl
    · have cleared : (wvmExecute vm proto 0).vm.stack reg =
          if vm.stackSize.toNat ≤ reg ∧ reg < proto.regCount.toNat then 0 else vm.stack reg := by
        rw [← start]
      exact cleared ▸ row_has _ small

end WVMRanges

/-! The theorem. -/

/-- C defines all that is evaluated in a run exactly if the prototype has a checked table of ranges
that holds of the registers in which the run starts. -/
theorem wvmExecute_defined_iff_ranges (vm : WVMState) (proto : WVMPrototype) :
    (∀ rounds, EvaluationDefined proto (wvmExecute vm proto rounds)) ↔
      ∃ ranges : WVMRanges, ranges.Checked proto ∧ ranges.Starts vm proto := by
  constructor
  · intro defined
    exact WVMRanges.exists_of_within fun rounds => evaluationDefined_iff.mp (defined rounds)
  · rintro ⟨ranges, checked, starts⟩ rounds
    exact evaluationDefined_iff.mpr (checked.within (checked.reached starts rounds))

/-- A register that counts modulo eight without an end. -/
def countModuloEight : WVMPrototype :=
  codeOf 3 [wvmEncodeOpRImm32 .loadImm 0 0, wvmEncodeOpRImm32 .loadImm 1 1,
    wvmEncodeOpRImm32 .loadImm 2 7, wvmEncodeOpRrr .add 0 0 1, wvmEncodeOpRrr .and 0 0 2,
    -- The jump goes back by two instructions.
    0xFFFFFFFE05]

/-- The counter is below eight at the head of the loop, so that no sum overflows. -/
theorem wvmExecute_defined_iff_ranges_loop :
    ∀ rounds, EvaluationDefined countModuloEight (wvmExecute wvmCreate countModuloEight rounds) :=
  (wvmExecute_defined_iff_ranges wvmCreate countModuloEight).mpr
    ⟨[(0, []), (1, [.ints ⟨0, 7⟩]), (2, [.ints ⟨0, 7⟩, .word (wvmValueFromInt 1)]),
      (3, [.ints ⟨0, 7⟩, .word (wvmValueFromInt 1), .word (wvmValueFromInt 7)]),
      (4, [.ints ⟨0, 8⟩, .word (wvmValueFromInt 1), .word (wvmValueFromInt 7)]),
      (5, [.ints ⟨0, 7⟩, .word (wvmValueFromInt 1), .word (wvmValueFromInt 7)])],
      by decide +kernel, by decide +kernel⟩

end Wirble
