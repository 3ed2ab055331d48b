import Mathlib.Algebra.Order.BigOperators.Group.List
import Mathlib.Algebra.Order.Ring.Nat
import Wirble.Library.Halting
import Wirble.Mal.Peephole

/-! When the peephole loop comes to an end: replacements that run in a circle. -/

namespace Wirble

open Search

/-! The operands of a replacement come from the instruction or from the rule. -/

/-- Matching one operand binds nothing but the operand. -/
theorem malMatchOperand_bindings {bindings bindings' : MALBindings}
    {pair : MALRuleOperandPattern × MALOperand}
    (matched : malMatchOperand bindings pair = some bindings')
    {binding : String × MALOperand} (member : binding ∈ bindings') :
    binding ∈ bindings ∨ binding.2 = pair.2 := by
  -- Only a variable that is not bound yet adds a binding.
  obtain ⟨pattern, operand⟩ := pair
  cases pattern with
  | any =>
    obtain rfl := Option.some.inj matched
    exact .inl member
  | operand expected =>
    rw [malMatchOperand] at matched
    split at matched
    · obtain rfl := Option.some.inj matched
      exact .inl member
    · cases matched
  | var name =>
    -- A bound variable only compares, and a fresh one is bound to the operand.
    rw [malMatchOperand] at matched
    split at matched
    · split at matched
      · obtain rfl := Option.some.inj matched
        exact .inl member
      · cases matched
    · split at matched
      · cases matched
      · obtain rfl := Option.some.inj matched
        rcases List.mem_append.mp member with earlier | fresh
        · exact .inl earlier
        · obtain rfl := List.mem_singleton.mp fresh
          exact .inr rfl

/-- The operands that a match binds are operands of the instruction. -/
theorem malMrsMatchRule_bindings {rule : MALRewriteRule} {inst : MALInst} {bindings : MALBindings}
    (matched : malMrsMatchRule rule inst = some bindings) {binding : String × MALOperand}
    (member : binding ∈ bindings) : binding.2 ∈ inst.operands := by
  rw [malMrsMatchRule] at matched
  split at matched
  · -- The bindings grow along the pairs of a pattern and an operand.
    have along : ∀ (pairs : List (MALRuleOperandPattern × MALOperand)) (start : MALBindings),
        (∀ pair ∈ pairs, pair.2 ∈ inst.operands) →
        (∀ bound ∈ start, bound.2 ∈ inst.operands) →
        pairs.foldlM malMatchOperand start = some bindings → binding.2 ∈ inst.operands := by
      intro pairs
      induction pairs with
      | nil =>
        intro start _ known ended
        obtain rfl := Option.some.inj ended
        exact known binding member
      | cons pair rest ih =>
        intro start drawn known folded
        simp only [List.foldlM_cons, Option.bind_eq_bind, Option.bind_eq_some_iff] at folded
        obtain ⟨grown, first, later⟩ := folded
        refine ih grown (fun other place => drawn other (by simp [place])) ?_ later
        -- One more pair may bind its own operand.
        intro bound place
        rcases malMatchOperand_bindings first place with earlier | fresh
        · exact known bound earlier
        · exact fresh ▸ drawn pair (by simp)
    -- The pairs are drawn from the operands of the instruction.
    refine along _ [] ?_ (by simp) matched
    intro pair place
    exact (List.of_mem_zip place).2
  · cases matched

/-- A replacement has at most as many operands as the rule names, bound or literal ones. -/
theorem malBuildOperands_drawn (bindings : MALBindings) (patterns : List MALRuleOperandPattern) :
    (malBuildOperands bindings patterns).length ≤ patterns.length ∧
      ∀ operand ∈ malBuildOperands bindings patterns,
        (∃ binding ∈ bindings, binding.2 = operand) ∨ .operand operand ∈ patterns := by
  -- Operands are built one by one, until a name is not bound.
  induction patterns with
  | nil => exact ⟨Nat.le_refl _, fun _ member => by cases member⟩
  | cons pattern rest ih =>
    obtain ⟨short, drawn⟩ := ih
    have later : ∀ operand ∈ malBuildOperands bindings rest,
        (∃ binding ∈ bindings, binding.2 = operand) ∨ .operand operand ∈ pattern :: rest :=
      fun operand member => (drawn operand member).imp_right (List.mem_cons_of_mem _)
    cases pattern with
    | any => exact ⟨Nat.le_succ_of_le short, later⟩
    -- A literal is an operand of the rule.
    | operand literal =>
      refine ⟨Nat.succ_le_succ short, fun operand member => ?_⟩
      rcases List.mem_cons.mp member with rfl | tail
      · exact .inr (by simp)
      · exact later operand tail
    | var name =>
      rw [malBuildOperands]
      cases found : bindings.lookup name with
      -- An unbound name ends the list.
      | none => exact ⟨Nat.zero_le _, fun _ member => by cases member⟩
      | some bound =>
        refine ⟨Nat.succ_le_succ short, fun operand member => ?_⟩
        rcases List.mem_cons.mp member with rfl | tail
        · obtain ⟨front, back, rfl, -⟩ := List.lookup_eq_some_iff.mp found
          exact .inl ⟨(name, operand), by simp, rfl⟩
        · exact later operand tail

/-! The instructions that replacements lead to. -/

section Orbit

variable (rules : List MALRewriteRule)

/-- The operands that the rules write by themselves. -/
def malRuleLiterals : List MALOperand :=
  rules.flatMap fun rule => rule.replaceOperands.filterMap fun pattern =>
    match pattern with
    | .operand operand => some operand
    | _ => none

/-- No rule names more operands than this for its replacement. -/
def malLongestReplacement : Nat := (rules.map fun rule => rule.replaceOperands.length).sum

/-- What replacements can make of an instruction. -/
structure DrawnFrom (inst result : MALInst) : Prop where
  kept : result.id = inst.id ∧ result.type = inst.type ∧ result.dst = inst.dst
  opcode : result.opcode ∈ inst.opcode :: rules.map (·.replaceOpcode)
  short : result.operands.length ≤ max inst.operands.length (malLongestReplacement rules)
  drawn : ∀ operand ∈ result.operands, operand ∈ inst.operands ++ malRuleLiterals rules

variable {rules}

/-- A successful rewrite of an instruction is the replacement of a rule that matches it. -/
theorem malRewriteInst_some {inst result : MALInst}
    (rewritten : malRewriteInst rules inst = some result) :
    ∃ rule ∈ rules, ∃ bindings, malMrsMatchRule rule inst = some bindings ∧
      malMrsBuildReplacement rule inst bindings = result := by
  obtain ⟨rule, member, fired⟩ := List.exists_of_findSome?_eq_some rewritten
  obtain ⟨bindings, matched, built⟩ := Option.map_eq_some_iff.mp fired
  exact ⟨rule, member, bindings, matched, built⟩

/-- One more replacement draws from the same operands. -/
theorem DrawnFrom.rewrite {inst middle result : MALInst} (from_inst : DrawnFrom rules inst middle)
    (rewritten : malRewriteInst rules middle = some result) : DrawnFrom rules inst result := by
  obtain ⟨rule, member, bindings, matched, rfl⟩ := malRewriteInst_some rewritten
  obtain ⟨short, drawn⟩ := malBuildOperands_drawn bindings rule.replaceOperands
  refine ⟨from_inst.kept, ?_, ?_, ?_⟩
  · exact List.mem_cons_of_mem _ (List.mem_map_of_mem member)
  · have bound : rule.replaceOperands.length ≤ malLongestReplacement rules :=
      List.single_le_sum (by simp) _ (List.mem_map_of_mem member)
    exact le_max_of_le_right (short.trans bound)
  · intro operand place
    rcases drawn operand place with bound | literal
    · -- A bound operand is one of the instruction that was matched.
      obtain ⟨binding, listed, rfl⟩ := bound
      exact from_inst.drawn _ (malMrsMatchRule_bindings matched listed)
    · refine List.mem_append_right _ (List.mem_flatMap.mpr ⟨rule, member, ?_⟩)
      exact List.mem_filterMap.mpr ⟨_, literal, rfl⟩

/-- Replacements lead from an instruction to finitely many instructions. -/
theorem malRewriteInst_orbit_finite (rules : List MALRewriteRule) (inst : MALInst) :
    {result | Relation.ReflTransGen (Steps (malRewriteInst rules)) inst result}.Finite := by
  -- Opcode and operands come from finite stores, and everything else is kept.
  let pool := inst.operands ++ malRuleLiterals rules
  let bound := max inst.operands.length (malLongestReplacement rules)
  have opcodes : {opcode | opcode ∈ inst.opcode :: rules.map (·.replaceOpcode)}.Finite :=
    List.finite_toSet _
  have pairs := (opcodes.prod (finite_lists pool bound)).image fun pair =>
    { inst with opcode := pair.1, operands := pair.2 }
  refine pairs.subset fun result leads => ?_
  -- Every instruction that is reached draws on these stores.
  have reached : DrawnFrom rules inst result := by
    induction leads with
    | refl => exact ⟨⟨rfl, rfl, rfl⟩, by simp, by simp, fun operand place => by simp [place]⟩
    | tail _ moves earlier => exact earlier.rewrite moves
  refine ⟨(result.opcode, result.operands), ⟨reached.opcode, reached.short, reached.drawn⟩, ?_⟩
  obtain ⟨id, type, dst⟩ := reached.kept
  cases result
  simp_all

end Orbit

/-! The loop over a whole function. -/

/-- Replacements lead from the instruction to one that leads back to itself. -/
def LeadsToCycle (rules : List MALRewriteRule) (inst : MALInst) : Prop :=
  ∃ result, Relation.ReflTransGen (Steps (malRewriteInst rules)) inst result ∧
    Relation.TransGen (Steps (malRewriteInst rules)) result result

/-- Rewriting a block halts just when it does for each of its instructions. -/
theorem malRewriteBlock_halts_iff (rules : List MALRewriteRule) (block : MALBlock) :
    Halts (malRewriteBlock rules) block ↔
      ∀ inst ∈ block.insts, Halts (malRewriteInst rules) inst := by
  rw [halts_part_iff (f := replaceFirst (malRewriteInst rules)) MALBlock.insts,
    halts_replaceFirst_iff]
  -- The block with one instruction replaced is the rewritten block.
  · intro block insts replaced
    exact ⟨{ block with insts := insts }, by rw [malRewriteBlock, replaced]; rfl, rfl⟩
  · intro block stuck
    rw [malRewriteBlock, stuck]
    rfl

/-- Rewriting a function halts just when it does for each of its instructions. -/
theorem malApplyOnePeephole_halts_iff (rules : List MALRewriteRule) (fn : MALFunction) :
    Halts (malApplyOnePeephole rules) fn ↔
      ∀ inst ∈ fn.insts, Halts (malRewriteInst rules) inst := by
  rw [halts_part_iff (f := replaceFirst (malRewriteBlock rules)) MALFunction.blocks,
    halts_replaceFirst_iff]
  -- The instructions of a function are those of its blocks.
  · simp only [malRewriteBlock_halts_iff, MALFunction.insts, List.mem_flatMap]
    constructor
    · intro each inst member
      obtain ⟨block, place, inside⟩ := member
      exact each block place inst inside
    · intro each block place inst inside
      exact each inst ⟨block, place, inside⟩
  -- The function with one block replaced is the rewritten function.
  · intro fn blocks replaced
    exact ⟨{ fn with blocks := blocks }, by rw [malApplyOnePeephole, replaced]; rfl, rfl⟩
  · intro fn stuck
    rw [malApplyOnePeephole, stuck]
    rfl

/-- The loop stops just when the replacements of no instruction of the function run in a circle. -/
theorem malApplyPeepholeToFixpoint_stops_iff (rules : List MALRewriteRule) (fn : MALFunction) :
    (∃ rounds, (malApplyPeepholeToFixpoint rules rounds fn).isSome) ↔
      ∀ inst ∈ fn.insts, ¬ LeadsToCycle rules inst := by
  show (∃ rounds, (whileSome (malApplyOnePeephole rules) rounds fn).isSome) ↔ _
  -- It is enough to follow each instruction on its own.
  rw [whileSome_isSome_iff, malApplyOnePeephole_halts_iff]
  refine forall₂_congr fun inst _ => ?_
  exact halts_iff_no_cycle (malRewriteInst_orbit_finite rules inst)

/-- The rule of `eqx_assoc.wrs`, which exchanges the operands of a sum. -/
def eqxAssocFile : List MALRuleForm :=
  [⟨some "eqx_assoc-1", ["add", "?x", "?y"], ["add", "?y", "?x"]⟩]

/-- A function of one block that adds its two parameters. -/
def addParams : MALFunction where
  name := "sum"
  retType := .i32
  paramTypes := [.i32, .i32]
  paramCount := 2
  blocks := [⟨0, [⟨0, .add, .i32, 2, [malOperandReg 0 .i32, malOperandReg 1 .i32]⟩], [], []⟩]
  nextSSAReg := 3

/-- The rule of the file in memory. -/
def eqxAssocRules : List MALRewriteRule :=
  [⟨"eqx_assoc-1", .add, [.var "x", .var "y"], .add, [.var "y", .var "x"]⟩]

/-- The loader accepts a file whose rule is applied to a sum forever. -/
theorem malApplyPeepholeToFixpoint_runs_forever :
    malMrsLoad eqxAssocFile = some eqxAssocRules ∧
      ¬ ∃ rounds, (malApplyPeepholeToFixpoint eqxAssocRules rounds addParams).isSome := by
  refine ⟨by decide, ?_⟩
  intro returns
  have halts := (malApplyOnePeephole_halts_iff _ _).mp (whileSome_isSome_iff.mp returns)
    ⟨0, .add, .i32, 2, [malOperandReg 0 .i32, malOperandReg 1 .i32]⟩ (by decide)
  -- Two replacements exchange the operands and exchange them back.
  have first : malRewriteInst eqxAssocRules
      ⟨0, .add, .i32, 2, [malOperandReg 0 .i32, malOperandReg 1 .i32]⟩ =
        some ⟨0, .add, .i32, 2, [malOperandReg 1 .i32, malOperandReg 0 .i32]⟩ := by decide
  have second : malRewriteInst eqxAssocRules
      ⟨0, .add, .i32, 2, [malOperandReg 1 .i32, malOperandReg 0 .i32]⟩ =
        some ⟨0, .add, .i32, 2, [malOperandReg 0 .i32, malOperandReg 1 .i32]⟩ := by decide
  exact halts.not_cycle (.tail (.single first) second)

end Wirble
