import Wirble.Wvm.Emitted

/-! Which instructions of a module have a machine instruction. -/

namespace Wirble

/-- For each shape of operands that an opcode has an instruction for, which operands are
immediates: the others are registers. -/
def malShapes : MALOpcode → List (List Bool)
  | .copy => [[false], [true]]
  | .add | .sub => [[false, false], [false, true]]
  | .shl | .ashr => [[false, true]]
  | .mul | .and | .or | .xor => [[false, false]]
  | .icmpEq | .icmpNe | .icmpSlt | .icmpSle | .icmpSgt | .icmpSge => [[false, false]]
  | .neg | .not | .ret => [[false]]
  | _ => []

/-- The operand is an immediate or a register as it should be, and no vector. -/
def MALOperand.isShaped (immediate : Bool) (operand : MALOperand) : Bool :=
  (if immediate then mdsIsImmediate operand else operand.isReg) &&
    mdsOperandBitWidth operand.type ≤ 64

/-- The operands have one of the shapes of the opcode. -/
def MALInst.isSelectable (inst : MALInst) : Bool :=
  (malShapes inst.opcode).any fun shape =>
    shape.length == inst.operands.length &&
      (shape.zip inst.operands).all fun pair => pair.2.isShaped pair.1

/-- What a built-in pattern demands of an operand. -/
def mdsDemand (immediate : Bool) : MDSOperandConstraint := ⟨immediate, !immediate, immediate, 64⟩

/-- A demand for an operand is a demand for its shape. -/
theorem mdsMatchOperandConstraint_demand (immediate : Bool) (operand : MALOperand) :
    mdsMatchOperandConstraint (mdsDemand immediate) operand = operand.isShaped immediate := by
  -- No stock type is wider than 64 bits.
  have narrow : (!(64 != 0 && mdsOperandBitWidth operand.type != 0 &&
      decide (64 < mdsOperandBitWidth operand.type))) =
        decide (mdsOperandBitWidth operand.type ≤ 64) := by
    cases operand.type <;> rfl
  -- The demand for a register leaves out the test for immediates, and the other way round.
  cases immediate with
  | false =>
    simp only [mdsMatchOperandConstraint, mdsDemand, narrow, MALOperand.isShaped, Bool.not_false,
      Bool.not_true, Bool.true_or, Bool.false_or, Bool.true_and, Bool.and_true, if_false,
      Bool.false_eq_true]
  | true =>
    simp only [mdsMatchOperandConstraint, mdsDemand, narrow, MALOperand.isShaped, Bool.not_true,
      Bool.not_false, Bool.false_or, Bool.true_or, Bool.and_true, Bool.and_self, if_true]

/-- The opcodes of the built-in patterns and their shapes, in the order of the table. -/
def mdsRoots : List (MALOpcode × List Bool) :=
  [(.copy, [false]), (.copy, [true]), (.add, [false, false]), (.add, [false, true]),
    (.sub, [false, false]), (.sub, [false, true]), (.mul, [false, false]), (.neg, [false]),
    (.and, [false, false]), (.or, [false, false]), (.xor, [false, false]), (.not, [false]),
    (.shl, [false, true]), (.ashr, [false, true]), (.icmpEq, [false, false]),
    (.icmpNe, [false, false]), (.icmpSlt, [false, false]), (.icmpSle, [false, false]),
    (.icmpSgt, [false, false]), (.icmpSge, [false, false]), (.ret, [false])]

/-- Every target has the same patterns. -/
theorem mdsCreateSelector_roots (kind : MDSTargetKind) :
    (mdsCreateSelector (mdsLoadMachine kind)).patterns.map (·.root) =
      mdsRoots.map fun root => some (root.1, root.2.map mdsDemand) := by
  cases kind <;> decide +kernel

/-- The shapes of an opcode are those of its patterns. -/
theorem mem_mdsRoots {opcode : MALOpcode} {shape : List Bool} :
    (opcode, shape) ∈ mdsRoots ↔ shape ∈ malShapes opcode := by
  simp only [mdsRoots, List.mem_cons, Prod.mk.injEq, List.not_mem_nil, or_false]
  cases opcode <;> simp [malShapes]

/-- A pattern matches an instruction whose operands have its shape. -/
theorem mdsPatternMatchesInst_root {pattern : MDSPattern} {opcode : MALOpcode} {shape : List Bool}
    (root : pattern.root = some (opcode, shape.map mdsDemand)) (inst : MALInst) :
    mdsPatternMatchesInst pattern inst = (opcode == inst.opcode &&
      (shape.length == inst.operands.length &&
        (shape.zip inst.operands).all fun pair => pair.2.isShaped pair.1)) := by
  rw [mdsPatternMatchesInst, root]
  simp only [List.length_map, List.zip_map_left, List.all_map, Bool.and_assoc]
  congr 2
  -- The constraints are demands, and each is for the shape of one operand.
  refine congrArg (List.all _) (funext fun pair => ?_)
  exact mdsMatchOperandConstraint_demand pair.1 pair.2

/-- Some pattern is best if there is one that matches. -/
theorem mdsSelectBestPattern_isSome {selector : MDSInstrSelector} {inst : MALInst}
    {pattern : MDSPattern} (member : pattern ∈ selector.patterns)
    (found : mdsPatternMatchesInst pattern inst = true) :
    (mdsSelectBestPattern selector inst).isSome = true := by
  -- A loop that takes the pattern and never gives up what it has.
  have kept : ∀ {step : Option MDSPattern → MDSPattern → Option MDSPattern},
      (∀ best next, best.isSome = true → (step best next).isSome = true) →
      (∀ best, (step best pattern).isSome = true) →
      ∀ (patterns : List MDSPattern) (best : Option MDSPattern),
        best.isSome = true ∨ pattern ∈ patterns → (patterns.foldl step best).isSome = true := by
    intro step holds takes patterns
    induction patterns with
    | nil => exact fun best known => known.resolve_right List.not_mem_nil
    | cons first rest later =>
      intro best known
      refine later _ ?_
      rcases known with held | here
      · exact .inl (holds best first held)
      · rcases List.mem_cons.mp here with rfl | inside
        · exact .inl (takes best)
        · exact .inr inside
  rw [mdsSelectBestPattern]
  refine kept (fun best next held => ?_) (fun best => ?_) selector.patterns none (.inr member)
  -- A pattern that has been found is replaced by a better one only.
  · obtain ⟨current, rfl⟩ := Option.isSome_iff_exists.mp held
    simp only
    split
    · split <;> rfl
    · rfl
  · simp only [found, if_true]
    split
    · rfl
    · split <;> rfl

/-- An instruction is selected exactly if its operands have a shape of its opcode, whatever the
target. -/
theorem mdsBuildSelectedInst_isSome_iff (kind : MDSTargetKind) (inst : MALInst) :
    (mdsBuildSelectedInst (mdsCreateSelector (mdsLoadMachine kind)) inst).isSome = true ↔
      inst.isSelectable = true := by
  have roots := mdsCreateSelector_roots kind
  constructor
  · intro built
    obtain ⟨out, selected⟩ := Option.isSome_iff_exists.mp built
    simp only [mdsBuildSelectedInst, Option.bind_eq_bind, Option.bind_eq_some_iff] at selected
    -- What was selected is a pattern of the target, with the root of some shape.
    obtain ⟨pattern, best, -⟩ := selected
    obtain ⟨member, found⟩ := mdsSelectBestPattern_some best
    have listed : pattern.root ∈ mdsRoots.map fun root => some (root.1, root.2.map mdsDemand) :=
      roots ▸ List.mem_map_of_mem member
    obtain ⟨⟨opcode, shape⟩, here, root⟩ := List.mem_map.mp listed
    rw [mdsPatternMatchesInst_root root.symm, Bool.and_eq_true, beq_iff_eq] at found
    obtain ⟨rfl, shaped⟩ := found
    exact List.any_eq_true.mpr ⟨shape, mem_mdsRoots.mp here, shaped⟩
  -- The shape is that of a pattern, so some pattern matches.
  · intro selectable
    obtain ⟨shape, shapes, shaped⟩ := List.any_eq_true.mp selectable
    have listed : some (inst.opcode, shape.map mdsDemand) ∈
        (mdsCreateSelector (mdsLoadMachine kind)).patterns.map (·.root) := by
      rw [roots]
      exact List.mem_map.mpr ⟨_, mem_mdsRoots.mpr shapes, rfl⟩
    obtain ⟨pattern, member, root⟩ := List.mem_map.mp listed
    have found : mdsPatternMatchesInst pattern inst = true := by
      rw [mdsPatternMatchesInst_root root, shaped, beq_self_eq_true, Bool.and_self]
    obtain ⟨best, selected⟩ :=
      Option.isSome_iff_exists.mp (mdsSelectBestPattern_isSome member found)
    -- Every pattern has an instruction to emit.
    have emits := mdsCreateSelector_emits kind best (mdsSelectBestPattern_some selected).1
    rw [wvmPatternEmits] at emits
    split at emits
    · next desc _ described =>
      have emitted : mdsDescFromPattern (mdsCreateSelector (mdsLoadMachine kind)) best =
          some desc := by
        rw [mdsDescFromPattern, mdsCreateSelector_machine]
        exact described
      simp only [mdsBuildSelectedInst, selected, emitted, Option.bind_eq_bind, Option.bind_some]
      rfl
    · cases emits

end Wirble
