import Wirble.Mal.PeepholeHalts

/-! Replacements as they are built in memory: which of them have all the operands of their rule. -/

namespace Wirble

/-- The operand array of an instruction, which is enlarged when it is full. -/
structure MALOperandArray where
  operands : List MALOperand
  operandCap : Nat
  deriving DecidableEq, Repr

/-- Append an operand. One that needs room that is refused is dropped without notice. -/
def malInstAddOperand (granted : Bool) (array : MALOperandArray) (operand : MALOperand) :
    MALOperandArray :=
  if array.operands.length = array.operandCap then
    if granted then
      { operands := array.operands ++ [operand]
        operandCap := if array.operandCap = 0 then 8 else array.operandCap * 2 }
    else array
  else { array with operands := array.operands ++ [operand] }

section Build

variable (bindings : MALBindings) (granted : Nat → Bool)

/-- The loop over the replacement patterns, where the memory answers each of them. -/
def malAppendOperands : Nat → List MALRuleOperandPattern → MALOperandArray → MALOperandArray
  | _, [], array => array
  | index, .any :: rest, array => malAppendOperands (index + 1) rest array
  | index, .operand operand :: rest, array =>
    malAppendOperands (index + 1) rest (malInstAddOperand (granted index) array operand)
  | index, .var name :: rest, array =>
    match bindings.lookup name with
    | none => array
    | some operand =>
      malAppendOperands (index + 1) rest (malInstAddOperand (granted index) array operand)

/-- `mal_mrs_build_replacement` gives up only if the instruction itself gets no memory. -/
def malBuildReplacementIn (created : Bool) (rule : MALRewriteRule) (inst : MALInst) :
    Option MALInst :=
  if created then
    some
      { inst with
        opcode := rule.replaceOpcode
        operands := (malAppendOperands bindings granted 0 rule.replaceOperands ⟨[], 0⟩).operands }
  else none

end Build

/-! Without refusals this is the replacement of the rewriter. -/

/-- With memory granted the operand is appended. -/
theorem malInstAddOperand_granted (array : MALOperandArray) (operand : MALOperand) :
    (malInstAddOperand true array operand).operands = array.operands ++ [operand] := by
  unfold malInstAddOperand
  split <;> rfl

/-- With memory granted all operands of the replacement are appended. -/
theorem malAppendOperands_granted (bindings : MALBindings) (index : Nat)
    (patterns : List MALRuleOperandPattern) (array : MALOperandArray) :
    (malAppendOperands bindings (fun _ => true) index patterns array).operands =
      array.operands ++ malBuildOperands bindings patterns := by
  -- Memory that is always granted leaves the operands as the rule builds them.
  induction patterns generalizing index array with
  | nil => simp [malAppendOperands, malBuildOperands]
  | cons pattern rest ih =>
    cases pattern with
    | any => exact ih (index + 1) array
    | operand operand =>
      rw [malAppendOperands, ih, malInstAddOperand_granted, malBuildOperands]
      simp
    | var name =>
      rw [malAppendOperands, malBuildOperands]
      cases bindings.lookup name with
      -- An unbound variable ends both lists.
      | none => simp
      | some operand =>
        simp only
        rw [ih, malInstAddOperand_granted]
        simp

/-- The rewriter of the peephole pass builds its replacements without refusals. -/
theorem malBuildReplacementIn_granted (rule : MALRewriteRule) (inst : MALInst)
    (bindings : MALBindings) :
    malBuildReplacementIn bindings (fun _ => true) true rule inst =
      some (malMrsBuildReplacement rule inst bindings) := by
  rw [malBuildReplacementIn, if_pos rfl, malAppendOperands_granted]
  rfl

/-! Counts at which the operand array is full. -/

/-- The capacity behind a number of operands that were all appended. -/
def malOperandCapAfter : Nat → Nat
  | 0 => 0
  | count + 1 =>
    if count = malOperandCapAfter count then
      if malOperandCapAfter count = 0 then 8 else malOperandCapAfter count * 2
    else malOperandCapAfter count

/-- The room is eight times a power of two, and after the first time more than half full. -/
theorem malOperandCapAfter_level (count : Nat) :
    ∃ level, malOperandCapAfter (count + 1) = 8 * 2 ^ level ∧ count + 1 ≤ 8 * 2 ^ level ∧
      (level ≠ 0 → 8 * 2 ^ level < 2 * (count + 1)) := by
  induction count with
  | zero => exact ⟨0, rfl, by decide, fun later => absurd rfl later⟩
  | succ count ih =>
    obtain ⟨level, room, fits, full⟩ := ih
    have doubled : 8 * 2 ^ (level + 1) = 8 * 2 ^ level * 2 := by rw [Nat.pow_succ]; omega
    have some_room : 8 * 2 ^ level ≠ 0 := by omega
    rw [malOperandCapAfter, room, if_neg some_room]
    by_cases exhausted : count + 1 = 8 * 2 ^ level
    · -- The array is full and doubles.
      rw [if_pos exhausted]
      exact ⟨level + 1, doubled.symm, by omega, fun _ => by omega⟩
    · rw [if_neg exhausted]
      exact ⟨level, rfl, by omega, fun later => by have := full later; omega⟩

/-- The array is full at no operands and at eight, sixteen, thirty-two and so on. -/
theorem malOperandCapAfter_eq_iff (count : Nat) :
    count = malOperandCapAfter count ↔ count = 0 ∨ ∃ level, count = 8 * 2 ^ level := by
  -- The capacity is the least power that the count fits in, from eight on.
  cases count with
  | zero => simp [malOperandCapAfter]
  | succ count =>
    obtain ⟨level, room, fits, full⟩ := malOperandCapAfter_level count
    rw [room]
    constructor
    · exact fun exhausted => .inr ⟨level, exhausted⟩
    · intro power
      rcases power with none | ⟨other, exact_count⟩
      · cases none
      · -- The two powers bound each other.
        rw [exact_count] at fits full ⊢
        have lower : other ≤ level :=
          (Nat.pow_le_pow_iff_right (by decide : 1 < 2)).mp (by omega)
        have upper : level ≤ other := by
          by_cases first : level = 0
          · omega
          · have strict := full first
            have below : 2 ^ level < 2 ^ (other + 1) := by rw [Nat.pow_succ]; omega
            have := (Nat.pow_lt_pow_iff_right (by decide : 1 < 2)).mp below
            omega
        rw [Nat.le_antisymm lower upper]

/-! Which replacements have all their operands. -/

/-- The operand that a replacement pattern stands for. -/
def malPatternOperand (bindings : MALBindings) : MALRuleOperandPattern → Option MALOperand
  | .any => none
  | .operand operand => some operand
  | .var name => bindings.lookup name

/-- The pattern is a literal or a variable of the rule's left-hand side. -/
def MALRewriteRule.Supplies (rule : MALRewriteRule) : MALRuleOperandPattern → Prop
  | .any => False
  | .operand _ => True
  | .var name => .var name ∈ rule.matchOperands

instance (rule : MALRewriteRule) (pattern : MALRuleOperandPattern) :
    Decidable (rule.Supplies pattern) :=
  match pattern with
  | .any => isFalse id
  | .operand _ => isTrue trivial
  | .var name => inferInstanceAs (Decidable (.var name ∈ rule.matchOperands))

section Bound

/-- Matching an operand binds the pattern's variable and keeps the variables bound before. -/
theorem malMatchOperand_bound {bindings bindings' : MALBindings}
    {pair : MALRuleOperandPattern × MALOperand}
    (matched : malMatchOperand bindings pair = some bindings') (name : String) :
    (bindings'.lookup name).isSome ↔ (bindings.lookup name).isSome ∨ pair.1 = .var name := by
  -- Only a variable that is not bound yet changes the bindings.
  obtain ⟨pattern, operand⟩ := pair
  cases pattern with
  | any =>
    obtain rfl := Option.some.inj matched
    simp
  | operand expected =>
    rw [malMatchOperand] at matched
    split at matched
    · obtain rfl := Option.some.inj matched
      simp
    · cases matched
  | var other =>
    -- A variable that is bound already compares, and binds nothing new.
    rw [malMatchOperand] at matched
    cases known : bindings.lookup other with
    | some bound =>
      simp only [known] at matched
      split at matched
      · obtain rfl := Option.some.inj matched
        constructor
        · exact .inl
        · intro either
          rcases either with earlier | same
          · exact earlier
          · cases same
            rw [known]
            rfl
      · cases matched
    -- A new variable is bound to the operand.
    | none =>
      simp only [known] at matched
      split at matched
      · cases matched
      · obtain rfl := Option.some.inj matched
        rw [List.lookup_append]
        by_cases same : name = other
        · simp [same, known]
        · have different : ¬ other = name := fun equal => same equal.symm
          simp [List.lookup_cons, beq_eq_false_iff_ne.mpr same, different]

/-- A match binds the variables of the rule's left-hand side and no others. -/
theorem malMrsMatchRule_bound {rule : MALRewriteRule} {inst : MALInst} {bindings : MALBindings}
    (matched : malMrsMatchRule rule inst = some bindings) (name : String) :
    (bindings.lookup name).isSome ↔ .var name ∈ rule.matchOperands := by
  rw [malMrsMatchRule] at matched
  split at matched
  · rename_i shape
    -- The bindings grow along the pairs, by the variables among them.
    have along : ∀ (pairs : List (MALRuleOperandPattern × MALOperand)) (start : MALBindings),
        pairs.foldlM malMatchOperand start = some bindings →
        ((bindings.lookup name).isSome ↔
          (start.lookup name).isSome ∨ .var name ∈ pairs.map (·.1)) := by
      intro pairs
      induction pairs with
      | nil =>
        intro start ended
        obtain rfl := Option.some.inj ended
        simp
      | cons pair rest ih =>
        intro start folded
        simp only [List.foldlM_cons, Option.bind_eq_bind, Option.bind_eq_some_iff] at folded
        -- One pair binds its variable, and the rest the others.
        obtain ⟨grown, first, later⟩ := folded
        rw [ih grown later, malMatchOperand_bound first]
        simp only [List.map_cons, List.mem_cons, eq_comm (a := pair.1), or_assoc]
    have whole := along _ [] matched
    rw [List.map_fst_zip (Nat.le_of_eq shape.2)] at whole
    simpa using whole
  · cases matched

/-- A replacement pattern stands for an operand just when the rule supplies one. -/
theorem malPatternOperand_isSome {rule : MALRewriteRule} {inst : MALInst} {bindings : MALBindings}
    (matched : malMrsMatchRule rule inst = some bindings) (pattern : MALRuleOperandPattern) :
    (malPatternOperand bindings pattern).isSome ↔ rule.Supplies pattern := by
  cases pattern with
  | any => simp [malPatternOperand, MALRewriteRule.Supplies]
  | operand operand => simp [malPatternOperand, MALRewriteRule.Supplies]
  | var name => exact malMrsMatchRule_bound matched name

end Bound

section Complete

variable {bindings : MALBindings} {granted : Nat → Bool}

/-- An operand is appended or dropped. -/
theorem malInstAddOperand_length (answer : Bool) (array : MALOperandArray) (operand : MALOperand) :
    (malInstAddOperand answer array operand).operands.length ≤ array.operands.length + 1 := by
  unfold malInstAddOperand
  -- The enlargement is granted or refused, or there is room.
  split
  · split
    · simp
    · omega
  · simp

/-- A pattern that stands for an operand has it appended. -/
theorem malAppendOperands_supplied {pattern : MALRuleOperandPattern} {operand : MALOperand}
    (supplied : malPatternOperand bindings pattern = some operand) (index : Nat)
    (rest : List MALRuleOperandPattern) (array : MALOperandArray) :
    malAppendOperands bindings granted index (pattern :: rest) array =
      malAppendOperands bindings granted (index + 1) rest
        (malInstAddOperand (granted index) array operand) := by
  -- A literal stands for itself, and a name for its binding.
  cases pattern with
  | any => cases supplied
  | operand literal =>
    obtain rfl := Option.some.inj supplied
    rfl
  | var name =>
    rw [malAppendOperands, show bindings.lookup name = some operand from supplied]

/-- There are at most as many new operands as patterns. -/
theorem malAppendOperands_length (index : Nat) (patterns : List MALRuleOperandPattern)
    (array : MALOperandArray) :
    (malAppendOperands bindings granted index patterns array).operands.length ≤
      array.operands.length + patterns.length := by
  -- A pattern adds one operand at most, and an unbound variable ends the loop.
  induction patterns generalizing index array with
  | nil => exact Nat.le_refl _
  | cons pattern rest ih =>
    rw [List.length_cons]
    cases supplied : malPatternOperand bindings pattern with
    | some operand =>
      -- What is supplied is added once at most.
      have bound := ih (index + 1) (malInstAddOperand (granted index) array operand)
      have grown := malInstAddOperand_length (granted index) array operand
      rw [malAppendOperands_supplied supplied]
      omega
    | none =>
      cases pattern with
      | any =>
        have bound := ih (index + 1) array
        rw [malAppendOperands]
        omega
      | operand literal => cases supplied
      | var name =>
        rw [malAppendOperands, show bindings.lookup name = none from supplied]
        exact Nat.le_add_right _ _

/-- A pattern that stands for no operand leaves the list one short. -/
theorem malAppendOperands_missing {pattern : MALRuleOperandPattern}
    (missing : malPatternOperand bindings pattern = none) (index : Nat)
    (rest : List MALRuleOperandPattern) (array : MALOperandArray) :
    (malAppendOperands bindings granted index (pattern :: rest) array).operands.length ≤
      array.operands.length + rest.length := by
  -- A wildcard appends nothing, and neither does a name without a binding.
  cases pattern with
  | any => exact malAppendOperands_length (index + 1) rest array
  | operand literal => cases missing
  | var name =>
    rw [malAppendOperands, show bindings.lookup name = none from missing]
    exact Nat.le_add_right _ _

/-- The array behind a number of operands that were all appended. -/
structure MALOperandArray.Complete (array : MALOperandArray) (count : Nat) : Prop where
  length : array.operands.length = count
  operandCap : array.operandCap = malOperandCapAfter count

/-- An operand arrives just when there is room for it or more room is granted. -/
theorem MALOperandArray.Complete.add {array : MALOperandArray} {count : Nat}
    (complete : array.Complete count) {answer : Bool} (operand : MALOperand)
    (room : count = malOperandCapAfter count → answer = true) :
    (malInstAddOperand answer array operand).operands = array.operands ++ [operand] ∧
      (malInstAddOperand answer array operand).Complete (count + 1) := by
  unfold malInstAddOperand
  rw [complete.length, complete.operandCap]
  -- The array is full, and has to be doubled, or has room for one more.
  by_cases full : count = malOperandCapAfter count
  · rw [if_pos full, if_pos (room full)]
    refine ⟨rfl, by simp [complete.length], ?_⟩
    rw [malOperandCapAfter, if_pos full]
  · rw [if_neg full]
    refine ⟨rfl, by simp [complete.length], ?_⟩
    rw [malOperandCapAfter, if_neg full]

/-- A refusal leaves the array as it was. -/
theorem MALOperandArray.Complete.refused {array : MALOperandArray} {count : Nat}
    (complete : array.Complete count) (operand : MALOperand)
    (full : count = malOperandCapAfter count) : malInstAddOperand false array operand = array := by
  unfold malInstAddOperand
  rw [complete.length, complete.operandCap, if_pos full]
  rfl

/-- The list is the one that the patterns stand for just when every pattern stands for an operand
and every enlargement is granted. -/
theorem malAppendOperands_complete_iff (bindings : MALBindings) (granted : Nat → Bool)
    (index : Nat) (patterns : List MALRuleOperandPattern) (array : MALOperandArray) (complete : array.Complete index) :
    (malAppendOperands bindings granted index patterns array).operands.map some =
        array.operands.map some ++ patterns.map (malPatternOperand bindings) ↔
      (∀ pattern ∈ patterns, (malPatternOperand bindings pattern).isSome) ∧
        ∀ count, index ≤ count → count < index + patterns.length →
          count = malOperandCapAfter count → granted count = true := by
  induction patterns generalizing index array with
  | nil =>
    refine iff_of_true (by simp [malAppendOperands]) ⟨by simp, fun count above below => ?_⟩
    rw [List.length_nil] at below
    omega
  | cons pattern rest ih =>
    -- A list that is too short is not the one that the patterns stand for.
    have short : ∀ {list : List MALOperand}, list.length ≤ array.operands.length + rest.length →
        list.map some ≠
          array.operands.map some ++ (pattern :: rest).map (malPatternOperand bindings) := by
      intro list bound equal
      have lengths := congrArg List.length equal
      simp only [List.length_map, List.length_append, List.length_cons] at lengths
      omega
    -- A pattern without an operand ends the list too early.
    cases supplied : malPatternOperand bindings pattern with
    | none =>
      refine iff_of_false (short (malAppendOperands_missing supplied index rest array)) ?_
      intro holds
      have present := holds.1 pattern (by simp)
      rw [supplied] at present
      cases present
    | some operand =>
      rw [malAppendOperands_supplied supplied]
      -- A refused enlargement drops the operand.
      by_cases refused : index = malOperandCapAfter index ∧ granted index = false
      · rw [refused.2, complete.refused operand refused.1]
        refine iff_of_false (short (malAppendOperands_length (index + 1) rest array)) ?_
        intro holds
        have answered := holds.2 index (Nat.le_refl _) (by simp) refused.1
        rw [refused.2] at answered
        cases answered
      · have room : index = malOperandCapAfter index → granted index = true := by
          intro full
          by_contra no
          exact refused ⟨full, by simpa using no⟩
        obtain ⟨appended, grown⟩ := complete.add operand room
        have rest_iff := ih (index + 1) _ grown
        rw [appended] at rest_iff
        rw [List.map_cons, supplied, ← List.singleton_append, ← List.append_assoc,
          show array.operands.map some ++ [some operand] = (array.operands ++ [operand]).map some by
            simp, rest_iff]
        -- The first pattern and the first count are settled.
        constructor
        -- The other patterns and counts follow from the rest.
        · intro later
          refine ⟨fun other member => ?_, fun count above below full => ?_⟩
          · rcases List.mem_cons.mp member with rfl | behind
            · rw [supplied]
              rfl
            · exact later.1 other behind
          · rw [List.length_cons] at below
            by_cases first : count = index
            · exact first ▸ room (first ▸ full)
            · exact later.2 count (by omega) (by omega) full
        · intro whole
          refine ⟨fun other behind => whole.1 other (List.mem_cons_of_mem _ behind), ?_⟩
          intro count above below full
          exact whole.2 count (by omega) (by rw [List.length_cons]; omega) full

end Complete

/-- Every operand of the replacement is the one that its pattern stands for, and none is missing. -/
def CompleteReplacement (bindings : MALBindings) (rule : MALRewriteRule) (replacement : MALInst) :
    Prop :=
  replacement.operands.length = rule.replaceOperands.length ∧
    ∀ (index : Nat) (pattern : MALRuleOperandPattern),
      rule.replaceOperands[index]? = some pattern →
      ∃ operand, malPatternOperand bindings pattern = some operand ∧
        replacement.operands[index]? = some operand

/-- Completeness position by position is equality of the lists. -/
theorem completeReplacement_iff {bindings : MALBindings} {rule : MALRewriteRule}
    {replacement : MALInst} :
    CompleteReplacement bindings rule replacement ↔
      replacement.operands.map some = rule.replaceOperands.map (malPatternOperand bindings) := by
  constructor
  · -- Past the patterns there is nothing on either side.
    intro complete
    apply List.ext_getElem?
    intro index
    -- The entries are compared at each position.
    simp only [List.getElem?_map]
    cases found : rule.replaceOperands[index]? with
    | none =>
      have past : replacement.operands[index]? = none := by
        rw [List.getElem?_eq_none_iff] at found ⊢
        rw [complete.1]
        exact found
      rw [past]
      rfl
    | some pattern =>
      obtain ⟨operand, supplied, placed⟩ := complete.2 index pattern found
      rw [placed, Option.map_some, Option.map_some, supplied]
  · intro equal
    refine ⟨by simpa using congrArg List.length equal, fun index pattern found => ?_⟩
    have entry := congrArg (·[index]?) equal
    simp only [List.getElem?_map, found, Option.map_some] at entry
    obtain ⟨operand, placed, supplied⟩ := Option.map_eq_some_iff.mp entry
    exact ⟨operand, supplied.symm, placed⟩

/--
Building a replacement gives nothing or all the operands of the rule in exactly two cases.
The instruction itself gets no memory, or each pattern is a literal or a variable of the match
and no enlargement of the operand array, at 0, 8, 16, 32 and so on operands, is refused.
-/
theorem malBuildReplacementIn_complete_iff (rule : MALRewriteRule) (inst : MALInst)
    (bindings : MALBindings) (matched : malMrsMatchRule rule inst = some bindings)
    (created : Bool) (granted : Nat → Bool) :
    (∀ replacement, malBuildReplacementIn bindings granted created rule inst = some replacement →
        CompleteReplacement bindings rule replacement) ↔
      created = false ∨
        (∀ pattern ∈ rule.replaceOperands, rule.Supplies pattern) ∧
          ∀ count < rule.replaceOperands.length, (count = 0 ∨ ∃ level, count = 8 * 2 ^ level) →
            granted count = true := by
  -- Without memory for the instruction there is no replacement.
  cases created with
  | false => simp [malBuildReplacementIn]
  | true =>
    have start : (⟨[], 0⟩ : MALOperandArray).Complete 0 := ⟨rfl, rfl⟩
    have whole := malAppendOperands_complete_iff bindings granted 0 rule.replaceOperands _ start
    simp only [List.map_nil, List.nil_append, Nat.zero_le, Nat.zero_add, true_implies,
      malPatternOperand_isSome matched, malOperandCapAfter_eq_iff] at whole
    simp only [malBuildReplacementIn, if_true, Option.some.injEq, forall_eq',
      completeReplacement_iff, Bool.true_eq_false, false_or]
    exact whole

/-- An exchange of operands has both of them when memory is granted. -/
theorem malBuildReplacementIn_complete_exchange :
    CompleteReplacement [("x", malOperandReg 0 .i32), ("y", malOperandReg 1 .i32)]
      ⟨"eqx_assoc-1", .add, [.var "x", .var "y"], .add, [.var "y", .var "x"]⟩
      ⟨0, .add, .i32, 2, [malOperandReg 1 .i32, malOperandReg 0 .i32]⟩ :=
  (malBuildReplacementIn_complete_iff
      ⟨"eqx_assoc-1", .add, [.var "x", .var "y"], .add, [.var "y", .var "x"]⟩
      ⟨0, .add, .i32, 2, [malOperandReg 0 .i32, malOperandReg 1 .i32]⟩
      [("x", malOperandReg 0 .i32), ("y", malOperandReg 1 .i32)] (by decide) true
      (fun _ => true)).mpr (.inr ⟨by decide, fun _ _ _ => rfl⟩) _ (by decide)

/-- The form of a rule that forgets one operand and skips another. -/
def shortRuleForm : MALRuleForm := ⟨none, ["add", "?x", "?y"], ["sub", "_", "?y", "?z", "?x"]⟩

/-- The loader accepts a rule with four replacement operands that builds one. -/
theorem malBuildReplacementIn_short :
    ∃ rule inst bindings replacement, malLoadRule shortRuleForm = some rule ∧
      malMrsMatchRule rule inst = some bindings ∧
      malBuildReplacementIn bindings (fun _ => true) true rule inst = some replacement ∧
      ¬ CompleteReplacement bindings rule replacement := by
  refine ⟨⟨"rule", .add, [.var "x", .var "y"], .sub, [.any, .var "y", .var "z", .var "x"]⟩,
    ⟨0, .add, .i32, 2, [malOperandReg 0 .i32, malOperandReg 1 .i32]⟩,
    [("x", malOperandReg 0 .i32), ("y", malOperandReg 1 .i32)],
    -- The third name has no binding, so only one operand arrives.
    ⟨0, .sub, .i32, 2, [malOperandReg 1 .i32]⟩, by decide, by decide, by decide, ?_⟩
  intro complete
  exact absurd complete.1 (by decide)

end Wirble
