import Wirble.Wvm.Encode

/-! What the encoder adds for each instruction of a stream, and which streams it can encode. -/

namespace Wirble

/-- The virtual register that stands for a register of the stream. -/
def wvmReg (reg : BitVec 32) : BitVec 16 := reg.setWidth 16

/-- The bytecode and the constants that one instruction of the stream adds. -/
structure WVMLine where
  words : List (BitVec 64)
  consts : List (BitVec 64)

namespace WVMLine

/-- Nothing is added. -/
def none : WVMLine := ⟨[], []⟩

/-- One word of bytecode more. -/
def push (line : WVMLine) (word : BitVec 64) : WVMLine :=
  { line with words := line.words ++ [word] }

/-- One line after another. -/
def append (line line' : WVMLine) : WVMLine :=
  ⟨line.words ++ line'.words, line.consts ++ line'.consts⟩

end WVMLine

/-- What is added to have an operand in a register, and the register, after so many constants. -/
def wvmOperandLine (scratch : BitVec 16) (count : Nat) (operand : MALOperand) :
    Option (WVMLine × BitVec 16) :=
  let pooled (value : BitVec 64) : WVMLine :=
    ⟨[wvmEncodeOpRConst .loadConst scratch (BitVec.ofNat 32 count)], [value]⟩
  match operand.payload with
  | .reg reg => some (.none, wvmReg reg)
  | .immInt value =>
    if -2 ^ 31 ≤ value.toInt ∧ value.toInt ≤ 2 ^ 31 - 1 then
      some (⟨[wvmEncodeOpRImm32 .loadImm scratch (value.setWidth 32)], []⟩, scratch)
    else some (pooled (wvmValueFromInt (value.setWidth 32)), scratch)
  | .immFloat value => some (pooled value, scratch)
  | _ => none

/-- What one instruction of the stream adds after so many constants, if it is supported. -/
def wvmInstLine (scratch : BitVec 16) (count : Nat) (inst : TOSInst) : Option WVMLine := do
  let desc ← inst.desc
  let name := desc.mnemonic
  if wvmNamed name "mov.rr" then
    match inst.operands with
    | [⟨_, .reg dst⟩, source] =>
      let (line, rhs) ← wvmOperandLine scratch count source
      return line.push (wvmEncodeOpRr .move (wvmReg dst) rhs)
    | _ => none
  else if wvmNamed name "mov.ri" then
    match inst.operands with
    | [⟨_, .reg dst⟩, source] =>
      let (line, rhs) ← wvmOperandLine scratch count source
      if rhs = wvmReg dst then some line
      else some (line.push (wvmEncodeOpRr .move (wvmReg dst) rhs))
    | _ => none
  else if wvmNamed name "ret" then
    match inst.operands with
    | [source] =>
      let (line, value) ← wvmOperandLine scratch count source
      return line.push (wvmEncodeOpR .return value)
    | _ => none
  else
    match inst.operands with
    | ⟨_, .reg dst⟩ :: first :: rest =>
      let (line, lhs) ← wvmOperandLine scratch count first
      if wvmNamed name "neg" then some (line.push (wvmEncodeOpRr .neg (wvmReg dst) lhs))
      else if wvmNamed name "not" then some (line.push (wvmEncodeOpRr .not (wvmReg dst) lhs))
      else
        match rest with
        | [] => none
        | second :: _ =>
          let (line', rhs) ← wvmOperandLine scratch (count + line.consts.length) second
          let op ← wvmBinaryOf name
          return (line.append line').push (wvmEncodeOpRrr op (wvmReg dst) lhs rhs)
    | _ => none

section Emit

namespace WVMEncodeBuilder

/-- The builder after a line has been added. -/
def add (builder : WVMEncodeBuilder) (line : WVMLine) : WVMEncodeBuilder :=
  { builder with instrs := builder.instrs ++ line.words, consts := builder.consts ++ line.consts }

/-- Both arrays of the builder are within the capacity. -/
def Room (builder : WVMEncodeBuilder) : Prop :=
  builder.instrs.length ≤ wvmBuilderCapacity ∧ builder.consts.length ≤ wvmBuilderCapacity

/-- The empty line adds nothing. -/
theorem add_none (builder : WVMEncodeBuilder) : builder.add .none = builder := by
  simp [add, WVMLine.none]

/-- Two lines are added one after the other. -/
theorem add_append (builder : WVMEncodeBuilder) (line line' : WVMLine) :
    builder.add (line.append line') = (builder.add line).add line' := by
  simp [add, WVMLine.append]

end WVMEncodeBuilder

variable {builder builder' : WVMEncodeBuilder}

/-- Appending a word to what a line has added adds the longer line. -/
theorem wvmBuilderAppendInstr_add {line : WVMLine} {word : BitVec 64}
    (consts : (builder.add line).consts.length ≤ wvmBuilderCapacity) :
    wvmBuilderAppendInstr (builder.add line) word = some builder' ↔
      builder' = builder.add (line.push word) ∧ builder'.Room := by
  have longer : (builder.add (line.push word)).instrs =
      (builder.add line).instrs ++ [word] := by
    simp [WVMEncodeBuilder.add, WVMLine.push]
  rw [wvmBuilderAppendInstr]
  split
  -- There is room for the word, and the builder is that of the longer line.
  · rename_i inside
    have room : (builder.add (line.push word)).Room := by
      refine ⟨?_, consts⟩
      rw [longer, List.length_append]
      exact inside
    have same : { builder.add line with instrs := (builder.add line).instrs ++ [word] } =
        builder.add (line.push word) := by
      simp [WVMEncodeBuilder.add, WVMLine.push]
    rw [same, Option.some.injEq]
    refine ⟨?_, fun equal => equal.1.symm⟩
    intro equal
    rw [← equal]
    exact ⟨rfl, room⟩
  · rename_i full
    refine ⟨nofun, ?_⟩
    -- The longer line would not fit.
    intro added
    have fits := added.2.1
    rw [added.1, longer, List.length_append, List.length_singleton] at fits
    omega

/-- The same, with a register that is returned beside the builder. -/
theorem wvmBuilderAppendInstr_return {line : WVMLine} {word : BitVec 64} {reg reg' : BitVec 16}
    (consts : (builder.add line).consts.length ≤ wvmBuilderCapacity) :
    ((wvmBuilderAppendInstr (builder.add line) word).bind fun done => some (done, reg)) =
        some (builder', reg') ↔
      ∃ longer, some (line.push word, reg) = some (longer, reg') ∧
        builder' = builder.add longer ∧ builder'.Room := by
  simp only [Option.bind_eq_some_iff, wvmBuilderAppendInstr_add consts, Option.some.injEq,
    Prod.mk.injEq]
  -- The pair is taken apart, and the register is the one that was passed.
  constructor
  · rintro ⟨final, ⟨added, room⟩, same, equal⟩
    rw [← same, ← equal]
    exact ⟨line.push word, ⟨rfl, rfl⟩, added, room⟩
  · rintro ⟨longer, ⟨same, equal⟩, added, room⟩
    rw [← same] at added
    exact ⟨builder', ⟨added, room⟩, rfl, equal⟩

/-- A constant is pooled if there is room for it. -/
theorem wvmBuilderAppendConst_eq (value : BitVec 64) :
    wvmBuilderAppendConst builder value =
      if builder.consts.length < wvmBuilderCapacity then
        some (builder.add ⟨[], [value]⟩, BitVec.ofNat 32 builder.consts.length) else none := by
  -- The pool is the only part that changes.
  have same : { builder with consts := builder.consts ++ [value] } =
      builder.add ⟨[], [value]⟩ := by
    simp [WVMEncodeBuilder.add]
  rw [wvmBuilderAppendConst, same]

/-- Having an operand in a register adds its line, if there is room for it. -/
theorem wvmOperandToReg_iff (room : builder.Room) {operand : MALOperand} {reg : BitVec 16} :
    wvmOperandToReg builder operand = some (builder', reg) ↔
      ∃ line, wvmOperandLine builder.scratchReg builder.consts.length operand = some (line, reg) ∧
        builder' = builder.add line ∧ builder'.Room := by
  -- Both kinds of large immediates append a constant and then a load of it.
  have pooled : ∀ value, ((wvmBuilderAppendConst builder value).bind fun pooled =>
      (wvmBuilderAppendInstr pooled.1
          (wvmEncodeOpRConst .loadConst builder.scratchReg pooled.2)).bind
        fun done => some (done, builder.scratchReg)) = some (builder', reg) ↔
      ∃ line, some (WVMLine.mk [wvmEncodeOpRConst .loadConst builder.scratchReg
          (BitVec.ofNat 32 builder.consts.length)] [value], builder.scratchReg) =
          some (line, reg) ∧ builder' = builder.add line ∧ builder'.Room := by
    intro value
    rw [wvmBuilderAppendConst_eq]
    split
    · rename_i inside
      apply wvmBuilderAppendInstr_return
      show (builder.consts ++ [value]).length ≤ _
      rw [List.length_append]
      exact inside
    · rename_i full
      refine ⟨fun made => absurd made (Option.some_ne_none _).symm, ?_⟩
      rintro ⟨line, same, added, fits⟩
      obtain ⟨rfl, -⟩ := Prod.mk.inj (Option.some.inj same)
      have long := fits.2
      simp only [added, WVMEncodeBuilder.add, List.length_append, List.length_singleton] at long
      omega
  unfold wvmOperandToReg wvmOperandLine
  cases payload : operand.payload with
  -- A register is used where it is.
  | reg source =>
    simp only [Option.some.injEq, Prod.mk.injEq]
    constructor
    · rintro ⟨same, equal⟩
      rw [← same]
      exact ⟨.none, ⟨rfl, equal⟩, builder.add_none.symm, room⟩
    · rintro ⟨line, ⟨same, equal⟩, added, _⟩
      rw [added, ← same, builder.add_none]
      exact ⟨rfl, equal⟩
  | immInt value =>
    -- A small immediate is loaded by one word, a large one from the pool.
    by_cases small : -2 ^ 31 ≤ value.toInt ∧ value.toInt ≤ 2 ^ 31 - 1
    · simp only [if_pos small]
      have constants : (builder.add .none).consts.length ≤ wvmBuilderCapacity := by
        rw [builder.add_none]
        exact room.2
      have start := @wvmBuilderAppendInstr_return builder builder' .none
        (wvmEncodeOpRImm32 .loadImm builder.scratchReg (value.setWidth 32)) builder.scratchReg reg
        constants
      rw [builder.add_none] at start
      exact start
    · simp only [if_neg small]
      exact pooled _
  | immFloat value => exact pooled value
  | _ => simp

/-- A builder with less added has room if one with more has. -/
theorem WVMEncodeBuilder.Room.of_longer {line longer : WVMLine}
    (room : (builder.add longer).Room) (words : line.words.length ≤ longer.words.length)
    (consts : line.consts.length ≤ longer.consts.length) : (builder.add line).Room := by
  obtain ⟨instrs, pool⟩ := room
  -- Both arrays are at most as long as those with the longer line.
  simp only [WVMEncodeBuilder.add, List.length_append] at instrs pool
  refine ⟨?_, ?_⟩
  · simp only [WVMEncodeBuilder.add, List.length_append]
    omega
  · simp only [WVMEncodeBuilder.add, List.length_append]
    omega

/-- What follows an operand may assume that the line of the operand has been added. -/
theorem wvmOperandToReg_bind (room : builder.Room) {operand : MALOperand}
    {emit : WVMEncodeBuilder × BitVec 16 → Option WVMEncodeBuilder}
    {lineOf : WVMLine × BitVec 16 → Option WVMLine}
    (next : ∀ line reg, (builder.add line).Room →
      (emit (builder.add line, reg) = some builder' ↔
        ∃ final, lineOf (line, reg) = some final ∧ builder' = builder.add final ∧ builder'.Room))
    (longer : ∀ line reg final, lineOf (line, reg) = some final →
      line.words.length ≤ final.words.length ∧ line.consts.length ≤ final.consts.length) :
    (wvmOperandToReg builder operand).bind emit = some builder' ↔
      ∃ final, (wvmOperandLine builder.scratchReg builder.consts.length operand).bind lineOf =
        some final ∧ builder' = builder.add final ∧ builder'.Room := by
  simp only [Option.bind_eq_some_iff, Prod.exists, wvmOperandToReg_iff room]
  constructor
  · rintro ⟨middle, reg, ⟨line, loaded, added, fits⟩, emitted⟩
    rw [added] at emitted fits
    obtain ⟨final, made, extended⟩ := (next line reg fits).mp emitted
    exact ⟨final, ⟨line, reg, loaded, made⟩, extended⟩
  · rintro ⟨final, ⟨line, reg, loaded, made⟩, added, fits⟩
    -- The operand finds room because everything does.
    obtain ⟨words, consts⟩ := longer line reg final made
    have shorter : (builder.add line).Room := by
      rw [added] at fits
      exact fits.of_longer words consts
    exact ⟨_, reg, ⟨line, loaded, rfl, shorter⟩,
      (next line reg shorter).mpr ⟨final, made, added, fits⟩⟩

/-- A word pushed onto a line shortens nothing. -/
theorem WVMLine.length_push (line : WVMLine) (word : BitVec 64) :
    line.words.length ≤ (line.push word).words.length ∧
      line.consts.length ≤ (line.push word).consts.length := by
  simp [WVMLine.push]

/-- A word behind the line of an operand. -/
theorem wvmOperandToReg_then (room : builder.Room) {operand : MALOperand}
    {word : BitVec 16 → BitVec 64} :
    ((wvmOperandToReg builder operand).bind fun loaded =>
        wvmBuilderAppendInstr loaded.1 (word loaded.2)) = some builder' ↔
      ∃ line, ((wvmOperandLine builder.scratchReg builder.consts.length operand).bind
        fun loaded => some (loaded.1.push (word loaded.2))) = some line ∧
        builder' = builder.add line ∧ builder'.Room := by
  -- The word is appended if there is room for it.
  apply wvmOperandToReg_bind room
  · intro line reg fits
    rw [wvmBuilderAppendInstr_add fits.2]
    simp
  · intro line reg final made
    rw [← Option.some.inj made]
    exact line.length_push _

/-- A word behind the line of an operand that is left out for one register. -/
theorem wvmOperandToReg_unless (room : builder.Room) {operand : MALOperand} {dst : BitVec 16}
    {word : BitVec 16 → BitVec 64} :
    ((wvmOperandToReg builder operand).bind fun loaded =>
        if loaded.2 = dst then some loaded.1
        else wvmBuilderAppendInstr loaded.1 (word loaded.2)) = some builder' ↔
      ∃ line, ((wvmOperandLine builder.scratchReg builder.consts.length operand).bind
        fun loaded => if loaded.2 = dst then some loaded.1
          else some (loaded.1.push (word loaded.2))) = some line ∧
        builder' = builder.add line ∧ builder'.Room := by
  apply wvmOperandToReg_bind room
  · intro line reg fits
    -- A register that is the destination already needs no move.
    by_cases same : reg = dst
    · simp only [if_pos same, Option.some.injEq]
      constructor
      · intro equal
        rw [← equal]
        exact ⟨line, rfl, rfl, fits⟩
      · intro ⟨final, equal, added, _⟩
        rw [added, equal]
    · simp only [if_neg same]
      rw [wvmBuilderAppendInstr_add fits.2]
      simp
  -- The move can only make the line longer.
  · intro line reg final made
    split at made
    · rw [← Option.some.inj made]
      exact ⟨Nat.le_refl _, Nat.le_refl _⟩
    · rw [← Option.some.inj made]
      exact line.length_push _

/-- A word behind the lines of two operands, with an opcode that may be missing. -/
theorem wvmOperandToReg_pair (room : builder.Room) {first second : MALOperand}
    {opcode : Option WVMOpcode} {word : WVMOpcode → BitVec 16 → BitVec 16 → BitVec 64} :
    ((wvmOperandToReg builder first).bind fun loaded =>
        (wvmOperandToReg loaded.1 second).bind fun loaded' =>
          opcode.bind fun op => wvmBuilderAppendInstr loaded'.1 (word op loaded.2 loaded'.2)) =
        some builder' ↔
      ∃ line, ((wvmOperandLine builder.scratchReg builder.consts.length first).bind fun loaded =>
        (wvmOperandLine builder.scratchReg (builder.consts.length + loaded.1.consts.length)
          second).bind fun loaded' => opcode.bind fun op =>
            some ((loaded.1.append loaded'.1).push (word op loaded.2 loaded'.2))) = some line ∧
        builder' = builder.add line ∧ builder'.Room := by
  apply wvmOperandToReg_bind room
  · intro line lhs fits
    show (wvmOperandToReg (builder.add line) second).bind _ = _ ↔ _
    -- The second operand is loaded behind the first one.
    have behind : (wvmOperandToReg (builder.add line) second).bind (fun loaded' =>
        opcode.bind fun op => wvmBuilderAppendInstr loaded'.1 (word op lhs loaded'.2)) =
          some builder' ↔
        ∃ final, ((wvmOperandLine builder.scratchReg (builder.add line).consts.length second).bind
          fun loaded' => opcode.bind fun op => some (loaded'.1.push (word op lhs loaded'.2))) =
          some final ∧ builder' = (builder.add line).add final ∧ builder'.Room := by
      apply wvmOperandToReg_bind fits
      · intro line' rhs fits'
        cases opcode with
        | none => simp
        | some op =>
          simp only [Option.bind_some]
          rw [wvmBuilderAppendInstr_add fits'.2]
          simp
      · intro line' rhs final made
        obtain ⟨op, -, same⟩ := Option.bind_eq_some_iff.mp made
        rw [← Option.some.inj same]
        exact line'.length_push _
    -- The constants of the first line come before those of the second.
    have count : (builder.add line).consts.length =
        builder.consts.length + line.consts.length := List.length_append
    have joined : ((wvmOperandLine builder.scratchReg
        (builder.consts.length + line.consts.length) second).bind fun loaded' =>
          opcode.bind fun op => some ((line.append loaded'.1).push (word op lhs loaded'.2))) =
        ((wvmOperandLine builder.scratchReg
          (builder.consts.length + line.consts.length) second).bind fun loaded' =>
            opcode.bind fun op => some (loaded'.1.push (word op lhs loaded'.2))).map
          line.append := by
      cases wvmOperandLine builder.scratchReg
        (builder.consts.length + line.consts.length) second with
      | none => rfl
      | some loaded =>
        cases opcode with
        | none => rfl
        | some op => simp [WVMLine.append, WVMLine.push]
    rw [behind, count, joined]
    simp only [Option.map_eq_some_iff, ← builder.add_append]
    -- The two lines are joined.
    constructor
    · intro ⟨final, made, added, room⟩
      exact ⟨line.append final, ⟨final, made, rfl⟩, added, room⟩
    · intro ⟨_, ⟨final, made, same⟩, added, room⟩
      rw [← same] at added
      exact ⟨final, made, added, room⟩
  · intro line lhs final made
    simp only [Option.bind_eq_some_iff, Option.some.injEq, Prod.exists] at made
    obtain ⟨line', rhs, -, op, -, rfl⟩ := made
    simp [WVMLine.push, WVMLine.append]

/-- Emitting an instruction adds its line, if it has one and there is room for it. -/
theorem wvmEmitFromMnemonic_iff (room : builder.Room) {inst : TOSInst} :
    wvmEmitFromMnemonic builder inst = some builder' ↔
      ∃ line, wvmInstLine builder.scratchReg builder.consts.length inst = some line ∧
        builder' = builder.add line ∧ builder'.Room := by
  have never : ∀ {property : WVMLine → Prop},
      none = some builder' ↔ ∃ line, none = some line ∧ property line := by
    intro property
    simp
  unfold wvmEmitFromMnemonic wvmInstLine
  cases inst.desc with
  | none => exact never
  | some desc =>
    simp only [Option.bind_eq_bind, Option.bind_some, Option.pure_def]
    generalize inst.operands = operands
    split
    · -- A move between registers has a register and one operand.
      obtain _ | ⟨⟨type, payload⟩, rest⟩ := operands
      · exact never
      cases payload with
      | reg dst =>
        obtain _ | ⟨source, _ | ⟨third, more⟩⟩ := rest
        · exact never
        · exact wvmOperandToReg_then room
        · exact never
      | _ => exact never
    split
    · -- A loaded constant has the same operands, and may already be where it should be.
      obtain _ | ⟨⟨type, payload⟩, rest⟩ := operands
      · exact never
      cases payload with
      | reg dst =>
        obtain _ | ⟨source, _ | ⟨third, more⟩⟩ := rest
        · exact never
        · exact wvmOperandToReg_unless room
        · exact never
      | _ => exact never
    split
    · -- A return has one operand.
      obtain _ | ⟨source, _ | ⟨second, more⟩⟩ := operands
      · exact never
      · exact wvmOperandToReg_then room
      · exact never
    -- Every other instruction writes a register.
    obtain _ | ⟨⟨type, payload⟩, rest⟩ := operands
    · exact never
    cases payload with
    | reg dst =>
      obtain _ | ⟨first, rest⟩ := rest
      · exact never
      dsimp only
      split
      · exact wvmOperandToReg_then room
      split
      · exact wvmOperandToReg_then room
      cases rest with
      | nil =>
        -- The first operand may still be loaded, but nothing is emitted.
        simp
      | cons second more => exact wvmOperandToReg_pair room
    | _ => exact never

/-- What instructions add one after another behind so many constants. -/
def wvmLinesFrom (scratch : BitVec 16) : Nat → List TOSInst → Option WVMLine
  | _, [] => some .none
  | count, inst :: rest => do
    let line ← wvmInstLine scratch count inst
    let lines ← wvmLinesFrom scratch (count + line.consts.length) rest
    return line.append lines

/-- Emitting instructions adds their lines, if all have one and there is room. -/
theorem wvmEmit_iff (insts : List TOSInst) : ∀ {builder : WVMEncodeBuilder}, builder.Room →
    (insts.foldlM wvmEmitFromMnemonic builder = some builder' ↔
      ∃ lines, wvmLinesFrom builder.scratchReg builder.consts.length insts = some lines ∧
        builder' = builder.add lines ∧ builder'.Room) := by
  induction insts with
  -- The empty stream has the empty line.
  | nil =>
    intro builder room
    simp only [List.foldlM_nil, Option.pure_def, wvmLinesFrom, Option.some.injEq]
    constructor
    · intro same
      rw [← same]
      exact ⟨.none, rfl, builder.add_none.symm, room⟩
    · rintro ⟨lines, empty, added, _⟩
      rw [added, ← empty, builder.add_none]
  | cons inst rest ih =>
    intro builder room
    -- Constants are numbered behind those that are in the pool already.
    have count : ∀ line : WVMLine, (builder.add line).consts.length =
        builder.consts.length + line.consts.length := fun line => List.length_append
    simp only [List.foldlM_cons, wvmLinesFrom, Option.bind_eq_bind, Option.bind_eq_some_iff,
      Option.pure_def, Option.some.injEq, wvmEmitFromMnemonic_iff room]
    constructor
    · rintro ⟨middle, ⟨line, made, added, fits⟩, emitted⟩
      rw [added] at fits emitted
      -- The first line has been added, and the rest by induction.
      obtain ⟨lines, others, extended, final⟩ := (ih fits).mp emitted
      rw [count] at others
      rw [← builder.add_append] at extended
      exact ⟨_, ⟨line, made, lines, others, rfl⟩, extended, final⟩
    · rintro ⟨_, ⟨line, made, lines, others, joined⟩, added, final⟩
      rw [← joined, builder.add_append] at added
      -- What fits in the end has fitted after the first line.
      have fits : (builder.add line).Room := by
        rw [added, ← builder.add_append] at final
        apply final.of_longer
        · simp [WVMLine.append]
        · simp [WVMLine.append]
      rw [← count] at others
      exact ⟨_, ⟨line, made, rfl, fits⟩, (ih fits).mpr ⟨lines, others, added, final⟩⟩

end Emit

/-- A prototype without code from the stream halts. -/
def WVMLine.code (line : WVMLine) : List (BitVec 64) :=
  if line.words = [] then [WVMOpcode.halt.code] else line.words

/-- All instructions are supported, and the code and the constants fit their arrays. -/
def TOSProgram.Encodable (program : TOSProgram) : Prop :=
  ∃ lines, wvmLinesFrom (wvmComputeRegCount program - 1) 0 program.instructions = some lines ∧
    lines.words.length ≤ wvmBuilderCapacity ∧ lines.consts.length ≤ wvmBuilderCapacity

section Prototype

variable {program : TOSProgram} {name source : Option CString}

/-- The parts of a prototype that come from the lines of the stream. -/
structure WVMEncoded (program : TOSProgram) (lines : WVMLine) (proto : WVMPrototype) : Prop where
  made : wvmLinesFrom (wvmComputeRegCount program - 1) 0 program.instructions = some lines
  instrs : proto.instrs = some lines.code
  instrCount : proto.instrCount.toNat = lines.code.length
  consts : proto.consts = some lines.consts
  constCount : proto.constCount.toNat = lines.consts.length
  regCount : proto.regCount = wvmComputeRegCount program

/-- A prototype holds the lines of its stream. -/
theorem wvmPrototypeFromTOS_encoded {proto : WVMPrototype}
    (returned : wvmPrototypeFromTOS program name source = some proto) :
    ∃ lines, lines.words.length ≤ wvmBuilderCapacity ∧
      lines.consts.length ≤ wvmBuilderCapacity ∧ WVMEncoded program lines proto := by
  have room : (wvmBuilderStart program).Room := ⟨Nat.zero_le _, Nat.zero_le _⟩
  unfold wvmPrototypeFromTOS at returned
  rw [Option.bind_eq_bind, Option.bind_eq_some_iff] at returned
  obtain ⟨middle, emitted, rest⟩ := returned
  -- The lines of the stream have been added to the start, and fit.
  obtain ⟨lines, made, added, fits⟩ := (wvmEmit_iff program.instructions room).mp emitted
  rw [added] at rest fits
  obtain ⟨words, constants⟩ := fits
  have instrs : ((wvmBuilderStart program).add lines).instrs = lines.words := rfl
  have consts : ((wvmBuilderStart program).add lines).consts = lines.consts := rfl
  rw [instrs] at words rest
  rw [consts] at constants
  have capacity : wvmBuilderCapacity = 2 ^ 31 := rfl
  have pool : (BitVec.ofNat 32 lines.consts.length).toNat = lines.consts.length := by
    rw [BitVec.toNat_ofNat, Nat.mod_eq_of_lt (by omega)]
  refine ⟨lines, words, constants, ?_⟩
  split at rest
  · -- Only a stream without code gets a halt.
    rename_i none
    have empty : lines.words = [] := List.length_eq_zero_iff.mp none
    have code : lines.code = [WVMOpcode.halt.code] := if_pos empty
    rw [wvmBuilderAppendInstr, instrs, if_pos (by rw [none]; decide), empty] at rest
    obtain rfl := Option.some.inj rest
    refine ⟨made, ?_, ?_, rfl, pool, rfl⟩
    · rw [code]
      rfl
    · rw [code]
      rfl
  -- Any other stream is its own code.
  · rename_i some
    have filled : lines.words ≠ [] := fun empty => some (by rw [empty]; rfl)
    have code : lines.code = lines.words := if_neg filled
    obtain rfl := Option.some.inj rest
    refine ⟨made, ?_, ?_, rfl, pool, rfl⟩
    · rw [code]
      rfl
    · rw [code]
      show (BitVec.ofNat 32 lines.words.length).toNat = _
      rw [BitVec.toNat_ofNat, Nat.mod_eq_of_lt (by omega)]

/-- The encoder returns a prototype just for the streams that it can encode. -/
theorem wvmPrototypeFromTOS_some_iff :
    (∃ proto, wvmPrototypeFromTOS program name source = some proto) ↔ program.Encodable := by
  -- The builder starts empty, with room for anything within its limits.
  have room : (wvmBuilderStart program).Room := ⟨Nat.zero_le _, Nat.zero_le _⟩
  constructor
  · intro ⟨proto, returned⟩
    obtain ⟨lines, words, consts, encoded⟩ := wvmPrototypeFromTOS_encoded returned
    exact ⟨lines, encoded.made, words, consts⟩
  · intro ⟨lines, made, fits⟩
    have emitted := (wvmEmit_iff program.instructions room).mpr ⟨lines, made, rfl, fits⟩
    unfold wvmPrototypeFromTOS
    rw [Option.bind_eq_bind, emitted, Option.bind_some]
    -- An empty stream gets a single halt, for which there is room.
    split
    · rename_i none
      rw [wvmBuilderAppendInstr, if_pos (by rw [none]; decide)]
      exact ⟨_, rfl⟩
    · exact ⟨_, rfl⟩

end Prototype

end Wirble
