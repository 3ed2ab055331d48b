import Wirble.Library.Signed
import Wirble.Wvm.Operands

/-! The integer operations of the interpreter: which results C defines, and which values they
refuse. -/

namespace Wirble

/-! Every integer operation computes a value from its sources or refuses them. -/

/-- The operations on integers. -/
def wvmIntegerOpcodes : List WVMOpcode := [.neg, .not] ++ wvmBinaryOpcodes

/-- The operations on integers whose result C may leave undefined, besides the negation. -/
def wvmArithmeticOpcodes : List WVMOpcode := [.add, .sub, .mul, .div, .mod, .shl, .shr]

/-- A run is about to execute an instruction of an opcode. -/
structure WVMRun.At (proto : WVMPrototype) (run : WVMRun) (op : WVMOpcode) : Prop where
  going : run.result = none
  inside : run.pc < proto.instrCount
  decoded : wvmOpcodeOf (proto.instrAt run.pc) = some op

/-- The values in the source registers of the next instruction. -/
def WVMRun.inputs (proto : WVMPrototype) (run : WVMRun) : List (BitVec 64) :=
  (wvmSourceRegs (proto.instrAt run.pc)).map run.slot

/-- The value of an operation on integers. -/
def wvmExecInteger (op : WVMOpcode) : List (BitVec 64) → Option (BitVec 64)
  | [x] =>
    match op with
    | .neg => some (wvmValueFromInt (-wvmAsInt x))
    | .not => some (wvmValueFromInt (~~~wvmAsInt x))
    | _ => none
  | [x, y] => wvmExecBinaryInt op x y
  | _ => none

/-- A run has stopped with an error, and with the registers as they were. -/
structure WVMRun.Refused (run after : WVMRun) : Prop where
  result : after.result = some false
  error : after.vm.lastError.isSome = true
  stack : after.vm.stack = run.vm.stack

section Step

variable {proto : WVMPrototype} {run : WVMRun} {op : WVMOpcode}

/-- The encoding of a decoded opcode is found in the table. -/
theorem wvmGetEncoding_of_opcode {word : BitVec 64} (decoded : wvmOpcodeOf word = some op) :
    wvmGetEncoding (wvmDecodeOp word) = wvmOpcodeEncodings op := by
  have found : wvmOpcodes[wvmDecodeOp word]? = some op := decoded
  rw [wvmGetEncoding, found]
  rfl

/-- A negation or a complement has one source. -/
theorem WVMRun.At.inputs_unary (next : run.At proto op) (unary : wvmOpcodeEncodings op = .opRr) :
    run.inputs proto = [run.slot (wvmDecodeRB (proto.instrAt run.pc))] := by
  rw [WVMRun.inputs, wvmSourceRegs, wvmGetEncoding_of_opcode next.decoded, unary]
  rfl

/-- An operation on two integers has two sources. -/
theorem WVMRun.At.inputs_binary (next : run.At proto op) (binary : op ∈ wvmBinaryOpcodes) :
    run.inputs proto = [run.slot (wvmDecodeRB (proto.instrAt run.pc)),
      run.slot (wvmDecodeRC (proto.instrAt run.pc))] := by
  have kind : wvmOpcodeEncodings op = .opRrr := by
    simp only [wvmBinaryOpcodes, List.mem_cons, List.not_mem_nil, or_false] at binary
    rcases binary with rfl | rfl | rfl | rfl | rfl | rfl | rfl | rfl | rfl | rfl | rfl | rfl | rfl |
      rfl | rfl | rfl <;> rfl
  rw [WVMRun.inputs, wvmSourceRegs, wvmGetEncoding_of_opcode next.decoded, kind]
  rfl

/-- One round that executes an operation on integers. -/
theorem WVMRun.At.step_integer (next : run.At proto op) (integer : op ∈ wvmIntegerOpcodes) :
    match wvmExecInteger op (run.inputs proto) with
    | some value =>
      run.Wrote (wvmDecodeRA (proto.instrAt run.pc)) value (wvmStep proto run)
    | none => run.Refused (wvmStep proto run) := by
  obtain ⟨framed, stack, pc, result, step⟩ := wvmStep_at next.going next.inside
  have slots : framed.slot = run.slot := by
    funext reg
    rw [WVMRun.slot, WVMRun.slot, stack]
  rw [step, wvmExecInstr, next.decoded]
  dsimp only
  -- A round that reads some registers and writes one.
  have wrote : ∀ (reads : List (BitVec 16)) (value : BitVec 64),
      run.Wrote (wvmDecodeRA (proto.instrAt run.pc)) value
        (((reads.foldl WVMRun.read framed).write (wvmDecodeRA (proto.instrAt run.pc)) value).next) := by
    intro reads value
    have same : ∀ run : WVMRun, (reads.foldl WVMRun.read run).vm = run.vm ∧
        (reads.foldl WVMRun.read run).pc = run.pc ∧
        (reads.foldl WVMRun.read run).result = run.result := by
      induction reads with
      | nil => exact fun run => ⟨rfl, rfl, rfl⟩
      | cons reg rest ih => exact fun run => ih (run.read reg)
    -- Reads change neither the machine nor the counter.
    obtain ⟨vm, place, outcome⟩ := same framed
    refine ⟨?_, ?_, ?_⟩
    · show Function.update (reads.foldl WVMRun.read framed).vm.stack _ _ = _
      rw [vm, stack]
    · show ((reads.foldl WVMRun.read framed).pc + 1).toNat = _
      rw [place, pc, pc_next next.inside]
    · exact outcome.trans result
  rcases List.mem_append.mp integer with unary | binary
  -- A negation and a complement read one register.
  · simp only [List.mem_cons, List.not_mem_nil, or_false] at unary
    rcases unary with rfl | rfl
    · rw [next.inputs_unary rfl, ← slots]
      exact wrote [_] _
    · rw [next.inputs_unary rfl, ← slots]
      exact wrote [_] _
  -- Any other operation reads two.
  · rw [next.inputs_binary binary, wvmExecOp_binary binary, slots]
    show match wvmExecBinaryInt op _ _ with
      | some value => _
      | none => _
    cases wvmExecBinaryInt op (run.slot (wvmDecodeRB (proto.instrAt run.pc)))
        (run.slot (wvmDecodeRC (proto.instrAt run.pc))) with
    | some value => exact wrote [_, _] value
    | none => exact ⟨rfl, rfl, stack⟩

end Step

/-! What C defines. -/

/-- What C says of the expressions that the interpreter evaluates, if it says anything. Divisions by
zero are not evaluated. -/
def wvmCInt (op : WVMOpcode) (a b : Int) : Option Int :=
  match op with
  | .add => Signed.add 32 a b
  | .sub => Signed.sub 32 a b
  | .mul => Signed.mul 32 a b
  | .div => if b = 0 then some 0 else Signed.div 32 a b
  | .mod => if b = 0 then some 0 else Signed.mod 32 a b
  | .shl => Signed.shl 32 a b
  | .shr => Signed.shr 32 a b
  | .neg => Signed.neg 32 a
  | _ => none

/-- The next instruction evaluates an operation on integers that C may leave undefined. -/
inductive WVMEvaluates (proto : WVMPrototype) (run : WVMRun) :
    WVMOpcode → BitVec 32 → BitVec 32 → Prop where
  | neg {x : BitVec 64} (next : run.At proto .neg) (inputs : run.inputs proto = [x]) :
      WVMEvaluates proto run .neg (wvmAsInt x) 0
  | binary {op : WVMOpcode} {x y : BitVec 64} (next : run.At proto op)
      (arithmetic : op ∈ wvmArithmeticOpcodes) (inputs : run.inputs proto = [x, y])
      (left : wvmIsInt x = true) (right : wvmIsInt y = true) :
      WVMEvaluates proto run op (wvmAsInt x) (wvmAsInt y)

/-- C defines what the next instruction evaluates, and the interpreter goes on with that value. -/
def EvaluationDefined (proto : WVMPrototype) (run : WVMRun) : Prop :=
  ∀ op a b, WVMEvaluates proto run op a b → ∃ value, wvmCInt op a.toInt b.toInt = some value ∧
    run.Wrote (wvmDecodeRA (proto.instrAt run.pc)) (wvmValueFromInt (BitVec.ofInt 32 value))
      (wvmStep proto run)

/-- The operands of an operation are within the limits of the operation. -/
def WVMWithin (op : WVMOpcode) (a b : Int) : Prop :=
  match op with
  | .add => Signed.AddFits 32 a b
  | .sub => Signed.SubFits 32 a b
  | .mul => Signed.MulFits 32 a b
  | .div | .mod => Signed.DivFits 32 a b
  | .shl => Signed.ShlFits 32 a b
  | .shr => Signed.ShrFits 32 b
  | .neg => Signed.NegFits 32 a
  | _ => True

/-- The operands of the next operation are within its limits. -/
def EvaluationWithin (proto : WVMPrototype) (run : WVMRun) : Prop :=
  ∀ op a b, WVMEvaluates proto run op a b → WVMWithin op a.toInt b.toInt

section Defined

variable {proto : WVMPrototype} {run : WVMRun} {op : WVMOpcode} {a b : BitVec 32}

/-- What the loop evaluates is a negation or a binary operation. -/
theorem WVMEvaluates.known (evaluates : WVMEvaluates proto run op a b) :
    op = .neg ∨ op ∈ wvmArithmeticOpcodes := by
  cases evaluates with
  | neg => exact .inl rfl
  | binary next arithmetic => exact .inr arithmetic

/-- A divisor that is zero cannot overflow. -/
theorem divFits_zero (a : Int) : Signed.DivFits 32 a 0 := by
  intro overflow
  exact absurd overflow.2 (by decide)

/-- C defines the result exactly if the operands are within the limits. -/
theorem wvmCInt_isSome (known : op = .neg ∨ op ∈ wvmArithmeticOpcodes) :
    (wvmCInt op a.toInt b.toInt).isSome = true ↔ WVMWithin op a.toInt b.toInt := by
  -- There is one case for each operation, and two of them divide.
  have left := Signed.fits_toInt a
  have right := Signed.fits_toInt b
  simp only [wvmArithmeticOpcodes, List.mem_cons, List.not_mem_nil, or_false] at known
  rcases known with rfl | rfl | rfl | rfl | rfl | rfl | rfl | rfl
  · exact Signed.neg_isSome left
  · exact Signed.add_isSome left
  · exact Signed.sub_isSome left
  · exact Signed.mul_isSome
  -- A zero divisor is tested for beforehand, also by the remainder.
  · show (if b.toInt = 0 then _ else _ : Option Int).isSome = true ↔ Signed.DivFits 32 _ _
    split
    · next zero =>
      rw [zero]
      exact iff_of_true rfl (divFits_zero _)
    · next divisor => exact Signed.div_isSome left right divisor
  · show (if b.toInt = 0 then _ else _ : Option Int).isSome = true ↔ Signed.DivFits 32 _ _
    split
    · next zero =>
      rw [zero]
      exact iff_of_true rfl (divFits_zero _)
    · next divisor => exact Signed.mod_isSome left right divisor
  · exact Signed.shl_isSome
  · exact Signed.shr_isSome

/-- A word is zero just when its integer is. -/
theorem toInt_eq_zero_iff : b.toInt = 0 ↔ b = 0#32 := by
  rw [← BitVec.toInt_inj, BitVec.toInt_zero]

/-- The interpreter computes what C defines. -/
theorem wvmExecBinaryInt_defined {x y : BitVec 64} {value : Int}
    (arithmetic : op ∈ wvmArithmeticOpcodes) (left : wvmIsInt x = true) (right : wvmIsInt y = true)
    (defined : wvmCInt op (wvmAsInt x).toInt (wvmAsInt y).toInt = some value) :
    wvmExecBinaryInt op x y = some (wvmValueFromInt (BitVec.ofInt 32 value)) := by
  -- There is one case for each operation, and a zero divisor gives zero.
  unfold wvmExecBinaryInt
  rw [left, right]
  simp only [Bool.not_true, Bool.or_self, Bool.false_eq_true, if_false]
  simp only [wvmArithmeticOpcodes, List.mem_cons, List.not_mem_nil, or_false] at arithmetic
  rcases arithmetic with rfl | rfl | rfl | rfl | rfl | rfl | rfl
  · rw [Signed.add_word _ _ defined]
  · rw [Signed.sub_word _ _ defined]
  · rw [Signed.mul_word _ _ defined]
  -- A quotient and a remainder are zero for a zero divisor.
  · replace defined : (if (wvmAsInt y).toInt = 0 then some 0 else _) = some value := defined
    split at defined
    · next zero =>
      rw [← Option.some.inj defined, toInt_eq_zero_iff.mp zero]
      rfl
    · rw [Signed.div_word _ _ defined]
  · replace defined : (if (wvmAsInt y).toInt = 0 then some 0 else _) = some value := defined
    split at defined
    · next zero =>
      rw [← Option.some.inj defined, toInt_eq_zero_iff.mp zero]
      rfl
    · rw [Signed.mod_word _ _ defined]
  · rw [Signed.shl_word _ _ defined]
  · rw [Signed.shr_word _ _ defined]

/-- What C defines is written to the destination. -/
theorem WVMEvaluates.wrote (evaluates : WVMEvaluates proto run op a b) {value : Int}
    (defined : wvmCInt op a.toInt b.toInt = some value) :
    run.Wrote (wvmDecodeRA (proto.instrAt run.pc)) (wvmValueFromInt (BitVec.ofInt 32 value))
      (wvmStep proto run) := by
  cases evaluates with
  | neg next inputs =>
    have step := next.step_integer (by decide)
    rw [inputs] at step
    -- The word of the negation is the negated word.
    rw [Signed.neg_word _ defined]
    exact step
  | @binary op x y next arithmetic inputs left right =>
    have integer : op ∈ wvmIntegerOpcodes := by
      have binary : wvmArithmeticOpcodes ⊆ wvmIntegerOpcodes := by decide
      exact binary arithmetic
    have step := next.step_integer integer
    -- The operation computes the word of what C defines.
    have computed := wvmExecBinaryInt_defined arithmetic left right defined
    -- Where a result is defined, the interpreter writes it, so the two sides are one condition.
    rw [inputs, wvmExecInteger, computed] at step
    exact step

/-- In one state, C defines the next operation exactly if its operands are within the limits. -/
theorem evaluationDefined_iff : EvaluationDefined proto run ↔ EvaluationWithin proto run := by
  constructor
  · intro defined op a b evaluates
    obtain ⟨value, result, -⟩ := defined op a b evaluates
    exact (wvmCInt_isSome evaluates.known).mp (Option.isSome_of_eq_some result)
  · intro within op a b evaluates
    have some_ := (wvmCInt_isSome evaluates.known).mpr (within op a b evaluates)
    obtain ⟨value, result⟩ := Option.isSome_iff_exists.mp some_
    exact ⟨value, result, evaluates.wrote result⟩

end Defined

/-- One more than the largest integer. -/
def addAtLimit : WVMPrototype :=
  codeOf 2 [wvmEncodeOpRImm32 .loadImm 0 0x7FFFFFFF, wvmEncodeOpRImm32 .loadImm 1 1,
    wvmEncodeOpRrr .add 0 0 1]

/-- The verifier accepts an addition that overflows. -/
theorem wvmExecute_not_defined :
    ¬ ∀ proto : WVMPrototype, wvmVerifyPrototype proto = .ok () → ∀ (vm : WVMState) rounds,
      EvaluationDefined proto (wvmExecute vm proto rounds) := by
  intro claimed
  have defined := claimed addAtLimit (by decide) wvmCreate 2
  -- After two rounds the operands are in their registers, and the sum does not fit.
  have next : (wvmExecute wvmCreate addAtLimit 2).At addAtLimit .add :=
    ⟨by decide, by decide, by decide⟩
  have evaluates : WVMEvaluates addAtLimit (wvmExecute wvmCreate addAtLimit 2) .add
      (wvmAsInt (wvmValueFromInt 0x7FFFFFFF)) (wvmAsInt (wvmValueFromInt 1)) :=
    .binary next (by decide) (by decide) (by decide) (by decide)
  obtain ⟨value, result, -⟩ := defined _ _ _ evaluates
  -- The sum is too large.
  have none_ : wvmCInt .add (wvmAsInt (wvmValueFromInt 0x7FFFFFFF)).toInt
      (wvmAsInt (wvmValueFromInt 1)).toInt = none := by
    decide
  rw [none_] at result
  cases result

/-! Types. -/

/-- Operations on integers go on with integers, and refuse other values without a change to the
registers. -/
def TypeSafe (proto : WVMPrototype) (run : WVMRun) : Prop :=
  ∀ op ∈ wvmIntegerOpcodes, run.At proto op →
    if (run.inputs proto).all wvmIsInt then
      (wvmStep proto run).result = none ∧ (wvmStep proto run).pc.toNat = run.pc.toNat + 1
    else run.Refused (wvmStep proto run)

/-- The next instruction negates or complements a value that is no integer. -/
def UntypedUnary (proto : WVMPrototype) (run : WVMRun) : Prop :=
  (run.At proto .neg ∨ run.At proto .not) ∧ ∃ value ∈ run.inputs proto, wvmIsInt value = false

section Types

variable {proto : WVMPrototype} {run : WVMRun} {op : WVMOpcode}

/-- An operation on two integers has a value exactly for integers. -/
theorem wvmExecBinaryInt_isSome {x y : BitVec 64} (binary : op ∈ wvmBinaryOpcodes) :
    (wvmExecBinaryInt op x y).isSome = true ↔ wvmIsInt x = true ∧ wvmIsInt y = true := by
  unfold wvmExecBinaryInt
  -- Both operands are tested before the operation is looked at.
  cases wvmIsInt x with
  | false => simp
  | true =>
    cases wvmIsInt y with
    | false => simp
    | true =>
      simp only [wvmBinaryOpcodes, List.mem_cons, List.not_mem_nil, or_false] at binary
      rcases binary with rfl | rfl | rfl | rfl | rfl | rfl | rfl | rfl | rfl | rfl | rfl | rfl |
        rfl | rfl | rfl | rfl <;> simp

/-- An operation on two integers is safe. -/
theorem typeSafe_binary (next : run.At proto op) (binary : op ∈ wvmBinaryOpcodes) :
    if (run.inputs proto).all wvmIsInt then
      (wvmStep proto run).result = none ∧ (wvmStep proto run).pc.toNat = run.pc.toNat + 1
    else run.Refused (wvmStep proto run) := by
  -- The interpreter computes a value exactly if both operands are integers.
  have step := next.step_integer (List.mem_append_right _ binary)
  rw [next.inputs_binary binary] at step ⊢
  replace step : match wvmExecBinaryInt op _ _ with
    | some value => _
    | none => _ := step
  have typed := @wvmExecBinaryInt_isSome op (run.slot (wvmDecodeRB (proto.instrAt run.pc)))
    (run.slot (wvmDecodeRC (proto.instrAt run.pc))) binary
  have both : ∀ x y, [x, y].all wvmIsInt = true ↔ wvmIsInt x = true ∧ wvmIsInt y = true := by
    intro x y
    rw [List.all_cons, List.all_cons, List.all_nil, Bool.and_true, Bool.and_eq_true]
  cases computed : wvmExecBinaryInt op (run.slot (wvmDecodeRB (proto.instrAt run.pc)))
      (run.slot (wvmDecodeRC (proto.instrAt run.pc))) with
  -- With two integers the operation goes on.
  | some value =>
    rw [computed] at step typed
    rw [if_pos ((both _ _).mpr (typed.mp rfl))]
    exact ⟨step.result, step.pc⟩
  -- Without two integers it is refused.
  | none =>
    rw [computed] at step typed
    rw [if_neg (fun ints => Bool.false_ne_true (typed.mpr ((both _ _).mp ints)))]
    exact step

/-- A negation or a complement goes on whatever its source holds. -/
theorem unary_goes_on (next : run.At proto op) (unary : op = .neg ∨ op = .not) :
    (wvmStep proto run).result = none ∧ (wvmStep proto run).pc.toNat = run.pc.toNat + 1 := by
  rcases unary with rfl | rfl
  · have step := next.step_integer (by decide)
    rw [next.inputs_unary rfl] at step
    exact ⟨step.result, step.pc⟩
  · have step := next.step_integer (by decide)
    rw [next.inputs_unary rfl] at step
    exact ⟨step.result, step.pc⟩

/-- One state is safe exactly if it is not before a negation or a complement of another value. -/
theorem typeSafe_iff : TypeSafe proto run ↔ ¬ UntypedUnary proto run := by
  constructor
  · intro safe ⟨next, value, among, other⟩
    have untyped : ¬ (run.inputs proto).all wvmIsInt = true := by
      intro typed
      rw [List.all_eq_true.mp typed value among] at other
      cases other
    -- The run goes on where it should have been refused.
    rcases next with next | next
    · have refused := safe _ (by decide) next
      rw [if_neg untyped] at refused
      have result := (unary_goes_on next (.inl rfl)).1
      rw [refused.result] at result
      cases result
    · have refused := safe _ (by decide) next
      rw [if_neg untyped] at refused
      have result := (unary_goes_on next (.inr rfl)).1
      rw [refused.result] at result
      cases result
  · intro typed op integer next
    rcases List.mem_append.mp integer with unary | binary
    -- A negation or complement of integers goes on.
    · simp only [List.mem_cons, List.not_mem_nil, or_false] at unary
      have ints : (run.inputs proto).all wvmIsInt = true := by
        apply List.all_eq_true.mpr
        intro value among
        cases whether : wvmIsInt value with
        | true => rfl
        | false =>
          refine absurd ⟨?_, value, among, whether⟩ typed
          rcases unary with rfl | rfl
          · exact .inl next
          · exact .inr next
      rw [if_pos ints]
      exact unary_goes_on next unary
    · exact typeSafe_binary next binary

/-- All states of a run so far are safe exactly if none of them was before a negation or a
complement of a value that is no integer. -/
theorem wvmExecute_typeSafe_iff (vm : WVMState) (proto : WVMPrototype) (rounds : Nat) :
    (∀ earlier ≤ rounds, TypeSafe proto (wvmExecute vm proto earlier)) ↔
      ∀ earlier ≤ rounds, ¬ UntypedUnary proto (wvmExecute vm proto earlier) := by
  constructor
  · intro safe earlier before
    exact typeSafe_iff.mp (safe earlier before)
  · intro typed earlier before
    exact typeSafe_iff.mpr (typed earlier before)

end Types

/-- The negation of a register that holds nil. -/
def negNil : WVMPrototype := codeOf 1 [wvmEncodeOpR .loadNil 0, wvmEncodeOpRr .neg 0 0]

/-- The verifier accepts a negation of nil, and it goes on. -/
theorem wvmExecute_not_typeSafe :
    ¬ ∀ proto : WVMPrototype, wvmVerifyPrototype proto = .ok () → ∀ (vm : WVMState) rounds,
      TypeSafe proto (wvmExecute vm proto rounds) := by
  intro claimed
  refine typeSafe_iff.mp (claimed negNil (by decide) wvmCreate 1) ?_
  exact ⟨.inl ⟨by decide, by decide, by decide⟩, wvmValueNil, by decide, by decide⟩

end Wirble
