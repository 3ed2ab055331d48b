import Wirble.Wrs.Pattern
import Wirble.Wil.Integers

/-! The built-in rule files and what their rules mean on integers. -/

namespace Wirble

/-- The rules of `arithmetic.wrs`. -/
def arithmeticRules : List WILRewriteRule :=
  [wilRuleCreateSimple "add-zero-right" (.node .add [wilPatVar "x", .constInt 0]) (wilPatVar "x"),
    wilRuleCreateSimple "add-zero-left" (.node .add [.constInt 0, wilPatVar "x"]) (wilPatVar "x"),
    wilRuleCreateSimple "sub-zero" (.node .sub [wilPatVar "x", .constInt 0]) (wilPatVar "x"),
    wilRuleCreateSimple "sub-zero-left" (.node .sub [.constInt 0, wilPatVar "x"])
      (.node .neg [wilPatVar "x"]),
    wilRuleCreateSimple "sub-self" (.node .sub [wilPatVar "x", wilPatVar "x"]) (.constInt 0),
    wilRuleCreateSimple "mul-one-right" (.node .mul [wilPatVar "x", .constInt 1]) (wilPatVar "x"),
    wilRuleCreateSimple "mul-one-left" (.node .mul [.constInt 1, wilPatVar "x"]) (wilPatVar "x"),
    wilRuleCreateSimple "mul-zero-right" (.node .mul [wilPatVar "x", .constInt 0]) (.constInt 0),
    wilRuleCreateSimple "mul-zero-left" (.node .mul [.constInt 0, wilPatVar "x"]) (.constInt 0),
    wilRuleCreateSimple "div-one" (.node .div [wilPatVar "x", .constInt 1]) (wilPatVar "x"),
    wilRuleCreateSimple "div-self" (.node .div [wilPatVar "x", wilPatVar "x"]) (.constInt 1),
    wilRuleCreateSimple "mod-one" (.node .mod [wilPatVar "x", .constInt 1]) (.constInt 0),
    wilRuleCreateSimple "neg-zero" (.node .neg [.constInt 0]) (.constInt 0),
    wilRuleCreateSimple "abs-zero" (.node .abs [.constInt 0]) (.constInt 0),
    wilRuleCreateSimple "shl-zero" (.node .shl [wilPatVar "x", .constInt 0]) (wilPatVar "x"),
    wilRuleCreateSimple "shr-zero" (.node .shr [wilPatVar "x", .constInt 0]) (wilPatVar "x"),
    wilRuleCreateSimple "add-self" (.node .add [wilPatVar "x", wilPatVar "x"])
      (.node .mul [wilPatVar "x", .constInt 2])]

/-- The rules of `logic.wrs`. -/
def logicRules : List WILRewriteRule :=
  [wilRuleCreateSimple "and-true-right" (.node .and [wilPatVar "x", .constBool true])
      (wilPatVar "x"),
    wilRuleCreateSimple "and-true-left" (.node .and [.constBool true, wilPatVar "x"])
      (wilPatVar "x"),
    wilRuleCreateSimple "and-false-right" (.node .and [wilPatVar "x", .constBool false])
      (.constBool false),
    wilRuleCreateSimple "and-false-left" (.node .and [.constBool false, wilPatVar "x"])
      (.constBool false),
    wilRuleCreateSimple "and-idempotent"
      (.node .and [wilPatVar "x", wilPatVar "x"]) (wilPatVar "x"),
    wilRuleCreateSimple "or-false-right" (.node .or [wilPatVar "x", .constBool false])
      (wilPatVar "x"),
    wilRuleCreateSimple "or-false-left" (.node .or [.constBool false, wilPatVar "x"])
      (wilPatVar "x"),
    wilRuleCreateSimple "or-true-right" (.node .or [wilPatVar "x", .constBool true])
      (.constBool true),
    wilRuleCreateSimple "or-true-left" (.node .or [.constBool true, wilPatVar "x"])
      (.constBool true),
    wilRuleCreateSimple "or-idempotent" (.node .or [wilPatVar "x", wilPatVar "x"]) (wilPatVar "x"),
    wilRuleCreateSimple "xor-false-right" (.node .xor [wilPatVar "x", .constBool false])
      (wilPatVar "x"),
    wilRuleCreateSimple "xor-false-left" (.node .xor [.constBool false, wilPatVar "x"])
      (wilPatVar "x"),
    wilRuleCreateSimple "not-not" (.node .not [.node .not [wilPatVar "x"]]) (wilPatVar "x"),
    wilRuleCreateSimple "not-true" (.node .not [.constBool true]) (.constBool false),
    wilRuleCreateSimple "not-false" (.node .not [.constBool false]) (.constBool true),
    wilRuleCreateSimple "eq-self" (.node .eq [wilPatVar "x", wilPatVar "x"]) (.constBool true),
    wilRuleCreateSimple "ne-self" (.node .ne [wilPatVar "x", wilPatVar "x"]) (.constBool false),
    wilRuleCreateSimple "select-true"
      (.node .select [.constBool true, wilPatVar "x", wilPatVar "y"])
      (wilPatVar "x"),
    wilRuleCreateSimple "select-false"
      (.node .select [.constBool false, wilPatVar "x", wilPatVar "y"])
      (wilPatVar "y"),
    wilRuleCreateSimple "select-same-branches"
      (.node .select [wilPatVar "cond", wilPatVar "x", wilPatVar "x"])
      (wilPatVar "x")]

/-- The rules of `canonical.wrs`. -/
def canonicalRules : List WILRewriteRule :=
  [wilRuleCreateSimple "neg-neg" (.node .neg [.node .neg [wilPatVar "x"]]) (wilPatVar "x"),
    wilRuleCreateSimple "abs-neg" (.node .abs [.node .neg [wilPatVar "x"]])
      (.node .abs [wilPatVar "x"]),
    wilRuleCreateSimple "add-neg-right" (.node .add [wilPatVar "x", .node .neg [wilPatVar "y"]])
      (.node .sub [wilPatVar "x", wilPatVar "y"]),
    wilRuleCreateSimple "add-neg-left" (.node .add [.node .neg [wilPatVar "y"], wilPatVar "x"])
      (.node .sub [wilPatVar "x", wilPatVar "y"]),
    wilRuleCreateSimple "sub-neg-right" (.node .sub [wilPatVar "x", .node .neg [wilPatVar "y"]])
      (.node .add [wilPatVar "x", wilPatVar "y"]),
    wilRuleCreateSimple "mul-neg-one-right" (.node .mul [wilPatVar "x", .constInt (-1)])
      (.node .neg [wilPatVar "x"]),
    wilRuleCreateSimple "mul-neg-one-left" (.node .mul [.constInt (-1), wilPatVar "x"])
      (.node .neg [wilPatVar "x"]),
    wilRuleCreateSimple "not-eq" (.node .not [.node .eq [wilPatVar "x", wilPatVar "y"]])
      (.node .ne [wilPatVar "x", wilPatVar "y"]),
    wilRuleCreateSimple "not-ne" (.node .not [.node .ne [wilPatVar "x", wilPatVar "y"]])
      (.node .eq [wilPatVar "x", wilPatVar "y"]),
    wilRuleCreateSimple "not-lt" (.node .not [.node .lt [wilPatVar "x", wilPatVar "y"]])
      (.node .ge [wilPatVar "x", wilPatVar "y"]),
    wilRuleCreateSimple "not-le" (.node .not [.node .le [wilPatVar "x", wilPatVar "y"]])
      (.node .gt [wilPatVar "x", wilPatVar "y"]),
    wilRuleCreateSimple "not-gt" (.node .not [.node .gt [wilPatVar "x", wilPatVar "y"]])
      (.node .le [wilPatVar "x", wilPatVar "y"]),
    wilRuleCreateSimple "not-ge" (.node .not [.node .ge [wilPatVar "x", wilPatVar "y"]])
      (.node .lt [wilPatVar "x", wilPatVar "y"]),
    wilRuleCreateSimple "select-not-cond"
      (.node .select [.node .not [wilPatVar "cond"], wilPatVar "x", wilPatVar "y"])
      (.node .select [wilPatVar "cond", wilPatVar "y", wilPatVar "x"])]

/-- The rules that `wilRewriteSystemAddAllBuiltinRules` loads, in their order. -/
def builtinRules : List WILRewriteRule := arithmeticRules ++ logicRules ++ canonicalRules

/-- Load the three files, none of which names a strategy. -/
def wilRewriteSystemAddAllBuiltinRules (sys : WILRewriteSystem) : WILRewriteSystem :=
  wrsFileApplyToSystem canonicalRules .innermost
    (wrsFileApplyToSystem logicRules .innermost
      (wrsFileApplyToSystem arithmeticRules .innermost sys))

/-- A built-in rule, whatever its counter and whether or not it is enabled. -/
def IsBuiltin (rule : WILRewriteRule) : Prop :=
  ∃ builtin ∈ builtinRules, ∃ (statsIndex : Nat) (enabled : Bool),
    rule = { builtin with statsIndex, enabled }

/-- Loading a file appends its rules, each with a counter of its own. -/
theorem mem_wrsFileApplyToSystem {rules : List WILRewriteRule} {strategy : WILRewriteStrategy}
    {sys : WILRewriteSystem} {rule : WILRewriteRule}
    (loaded : rule ∈ (wrsFileApplyToSystem rules strategy sys).rules) :
    rule ∈ sys.rules ∨ ∃ original ∈ rules, ∃ statsIndex, rule = { original with statsIndex } := by
  rw [wrsFileApplyToSystem] at loaded
  generalize started : { sys with strategy } = current at loaded
  have same : current.rules = sys.rules := by rw [← started]
  rw [← same]
  clear started same
  induction rules generalizing current with
  | nil => exact .inl loaded
  | cons first rest next =>
    rcases next _ loaded with appended | ⟨original, member, statsIndex, equal⟩
    · -- The rules after one more are the rules before and that one.
      rcases List.mem_append.mp appended with old | fresh
      · exact .inl old
      · exact .inr ⟨first, .head _, _, List.mem_singleton.mp fresh⟩
    · exact .inr ⟨original, .tail _ member, statsIndex, equal⟩

/-- Loading the three files adds built-in rules only. -/
theorem mem_wilRewriteSystemAddAllBuiltinRules {sys : WILRewriteSystem} {rule : WILRewriteRule}
    (loaded : rule ∈ (wilRewriteSystemAddAllBuiltinRules sys).rules) :
    rule ∈ sys.rules ∨ IsBuiltin rule := by
  -- Each file appends copies of built-in rules that differ from them in their counters only.
  rw [wilRewriteSystemAddAllBuiltinRules] at loaded
  have found : ∀ original, original ∈ arithmeticRules ∨ original ∈ logicRules ∨
      original ∈ canonicalRules → ∀ statsIndex, IsBuiltin { original with statsIndex } := by
    intro original member statsIndex
    refine ⟨original, ?_, statsIndex, original.enabled, rfl⟩
    rwa [builtinRules, List.mem_append, List.mem_append, or_assoc]
  rcases mem_wrsFileApplyToSystem loaded with earlier | ⟨original, member, statsIndex, equal⟩
  · rcases mem_wrsFileApplyToSystem earlier with earliest | ⟨original, member, statsIndex, equal⟩
    · rcases mem_wrsFileApplyToSystem earliest with old | ⟨original, member, statsIndex, equal⟩
      · exact .inl old
      · exact .inr (equal ▸ found original (.inl member) statsIndex)
    · exact .inr (equal ▸ found original (.inr (.inl member)) statsIndex)
  · exact .inr (equal ▸ found original (.inr (.inr member)) statsIndex)

/-! Sorts of patterns. -/

/-- The width of an operator's result, where it is applied to operands it accepts. -/
def operatorSort : WILNodeKind → List (Option Nat) → Option Nat
  | .neg, [width] | .not, [width] | .abs, [width] => width
  | .add, [some x, some y] | .sub, [some x, some y] | .mul, [some x, some y]
  | .div, [some x, some y] | .mod, [some x, some y] | .and, [some x, some y]
  | .or, [some x, some y] | .xor, [some x, some y] | .shl, [some x, some y]
  | .shr, [some x, some y] => if x = y then some x else none
  | .eq, [some x, some y] | .ne, [some x, some y] | .lt, [some x, some y]
  | .le, [some x, some y] | .gt, [some x, some y] | .ge, [some x, some y] =>
    if x = y then some 1 else none
  | .select, [some condition, some x, some y] =>
    if condition = 1 ∧ x = y then some x else none
  | _, _ => none

namespace WILPattern

section Widths

-- Integer constants take the width the rule is read at.
variable (width : Nat) (sorts : String → Nat)

mutual

/-- The width of a pattern's value, given those of its variables. -/
def sort : WILPattern → Option Nat
  | var (some name) => some (sorts name)
  | constInt _ => some width
  | constBool _ => some 1
  | node kind inputs => operatorSort kind (sortList inputs)
  | _ => none

/-- The widths of a list of patterns. -/
def sortList : List WILPattern → List (Option Nat)
  | [] => []
  | pattern :: rest => pattern.sort :: sortList rest

end

end Widths

end WILPattern

/-- Both sides of a rule have a sort, and the same one. -/
def SortConsistent (width : Nat) (sorts : String → Nat) (rule : WILRewriteRule) : Prop :=
  ∃ sort, rule.lhs.sort width sorts = some sort ∧ rule.rhs.sort width sorts = some sort

/-- Both sides of a rule have the same integer value under the assignment. -/
def RuleHolds (width : Nat) (values : String → IntValue) (rule : WILRewriteRule) : Prop :=
  ∀ (params : Nat → Option IntValue) (other : WILNode → List (Option IntValue) → Option IntValue),
    rule.lhs.eval (wilIntegers width params other) (fun name => some (values name)) =
      rule.rhs.eval (wilIntegers width params other) (fun name => some (values name))

section Soundness

open WILPattern IntValue

variable {width : Nat} {values : String → IntValue}

/-- The rules for arithmetic keep all values, but for the division of a value by itself. -/
theorem arithmeticRules_hold : ∀ rule ∈ arithmeticRules, rule.name ≠ "div-self" →
    SortConsistent width (fun name => (values name).1) rule → RuleHolds width values rule := by
  rcases read : values "x" with ⟨size, x⟩
  -- Evaluate both sides of every rule, and read the sorts off the operators.
  simp only [arithmeticRules, List.forall_mem_cons, wilRuleCreateSimple, SortConsistent, RuleHolds,
    wilPatVar, sort, sortList, eval, evalList, read, operatorSort, wilIntegers, wilOperator]
  refine ⟨?_, ?_, ?_, ?_, ?_, ?_, ?_, ?_, ?_, ?_, ?_, ?_, ?_, ?_, ?_, ?_, ?_,
    List.forall_mem_nil _⟩
  all_goals
    rintro name ⟨sort, left, right⟩ params other
    simp only [Option.ite_none_right_eq_some, Option.some.injEq, true_and] at left right
  -- The sorts identify the width of the variable with that of the constants.
  all_goals
    obtain ⟨rfl, rfl⟩ := left
    obtain ⟨rfl, -⟩ := right
  -- What remains is one equation of words for each rule.
  all_goals
    simp [Word.div_one, Word.mod_one, Word.shl_zero, Word.shr_zero, Word.add_self, BitVec.abs_eq,
      -ne_eq] at name ⊢

/-- The rules for logic keep all values. -/
theorem logicRules_hold : ∀ rule ∈ logicRules,
    SortConsistent width (fun name => (values name).1) rule → RuleHolds width values rule := by
  rcases readX : values "x" with ⟨sizeX, x⟩
  rcases readY : values "y" with ⟨sizeY, y⟩
  rcases readCond : values "cond" with ⟨sizeCond, condition⟩
  simp only [logicRules, List.forall_mem_cons, wilRuleCreateSimple, SortConsistent, RuleHolds,
    wilPatVar, sort, sortList, eval, evalList, readX, readY, readCond, operatorSort, wilIntegers,
    wilOperator]
  refine ⟨?_, ?_, ?_, ?_, ?_, ?_, ?_, ?_, ?_, ?_, ?_, ?_, ?_, ?_, ?_, ?_, ?_, ?_, ?_, ?_,
    List.forall_mem_nil _⟩
  all_goals
    rintro ⟨sort, left, right⟩ params other
    simp only [Option.ite_none_right_eq_some, Option.some.injEq, true_and, and_true] at left right
  -- Rules with a truth constant fix the width of their variable at one bit.
  all_goals
    obtain ⟨rfl, rfl⟩ := left
    simp [truth, Word.and_one, Word.one_and, Word.or_one, Word.one_or]

/-- The rules for canonical forms keep all values. -/
theorem canonicalRules_hold : ∀ rule ∈ canonicalRules,
    SortConsistent width (fun name => (values name).1) rule → RuleHolds width values rule := by
  rcases readX : values "x" with ⟨sizeX, x⟩
  rcases readY : values "y" with ⟨sizeY, y⟩
  rcases readCond : values "cond" with ⟨sizeCond, condition⟩
  simp only [canonicalRules, List.forall_mem_cons, wilRuleCreateSimple, SortConsistent, RuleHolds,
    wilPatVar, sort, sortList, eval, evalList, readX, readY, readCond, operatorSort, wilIntegers,
    wilOperator]
  refine ⟨?_, ?_, ?_, ?_, ?_, ?_, ?_, ?_, ?_, ?_, ?_, ?_, ?_, ?_, List.forall_mem_nil _⟩
  all_goals
    rintro ⟨sort, left, right⟩ params other
    simp only [Option.ite_none_right_eq_some, Option.some.injEq] at left right
  -- Both operands of a binary operator have one width.
  all_goals
    obtain ⟨⟨rfl, rfl⟩, rfl⟩ := left
    simp [bne, Word.abs_neg, Word.add_neg, Word.neg_add, Word.not_slt, Word.not_sle,
      Word.mul_neg_one, Word.neg_one_mul, Word.not_eq_one]

/-- The rule `div-self` holds where the quotient of its operand by itself is one. -/
theorem divSelf_holds_iff {rule : WILRewriteRule} (loaded : rule ∈ arithmeticRules)
    (named : rule.name = "div-self")
    (consistent : SortConsistent width (fun name => (values name).1) rule) :
    RuleHolds width values rule ↔ ¬ (0 < width ∧ (values "x").2 = 0#(values "x").1) := by
  -- No other rule of the file has this name.
  have only : rule = wilRuleCreateSimple "div-self"
      (.node .div [wilPatVar "x", wilPatVar "x"]) (.constInt 1) := by
    revert named
    revert rule
    simp [arithmeticRules, wilRuleCreateSimple]
  subst only
  -- Both operands have the width of the value of the variable.
  rcases read : values "x" with ⟨size, x⟩
  simp only [SortConsistent, wilRuleCreateSimple, wilPatVar, sort, sortList, operatorSort, read]
    at consistent
  obtain ⟨sort, left, right⟩ := consistent
  simp only [Option.ite_none_right_eq_some, Option.some.injEq, true_and] at left right
  subst left
  subst right
  -- The rule holds where the quotient of that value by itself is one.
  simp only [RuleHolds, wilRuleCreateSimple, wilPatVar, eval, evalList, wilIntegers, wilOperator,
    read, binary_some, forall_const, Option.some.injEq, Sigma.mk.injEq, heq_eq_eq, true_and]
  exact Word.div_self_eq_one_iff x

/-- A built-in rule preserves the value exactly where it is not a division of zero by itself. -/
theorem builtin_rule_holds_iff (width : Nat) (values : String → IntValue) (rule : WILRewriteRule)
    (loaded : rule ∈ builtinRules)
    (consistent : SortConsistent width (fun name => (values name).1) rule) :
    RuleHolds width values rule ↔
      ¬ (rule.name = "div-self" ∧ 0 < width ∧ (values "x").2 = 0#(values "x").1) := by
  by_cases named : rule.name = "div-self"
  · have inArithmetic : rule ∈ arithmeticRules := by
      -- Only the first file has a rule of this name.
      simp only [builtinRules, List.mem_append] at loaded
      rcases loaded with (first | second) | third
      · exact first
      · have other : ∀ rule ∈ logicRules, rule.name ≠ "div-self" := by
          simp [logicRules, wilRuleCreateSimple]
        exact absurd named (other rule second)
      · have other : ∀ rule ∈ canonicalRules, rule.name ≠ "div-self" := by
          simp [canonicalRules, wilRuleCreateSimple]
        exact absurd named (other rule third)
    simp only [divSelf_holds_iff inArithmetic named consistent, named, true_and]
  -- The other rules hold wherever their sorts are consistent.
  · have holds : RuleHolds width values rule := by
      simp only [builtinRules, List.mem_append] at loaded
      rcases loaded with (first | second) | third
      · exact arithmeticRules_hold rule first named consistent
      · exact logicRules_hold rule second consistent
      · exact canonicalRules_hold rule third consistent
    exact iff_of_true holds fun bad => named bad.1

/-- Doubling keeps the value seven at a width of eight bits. -/
theorem builtin_rule_holds_iff_add_self :
    let rule := wilRuleCreateSimple "add-self" (.node .add [wilPatVar "x", wilPatVar "x"])
      (.node .mul [wilPatVar "x", .constInt 2])
    RuleHolds 8 (fun _ => ⟨8, 7#8⟩) rule ↔
      ¬ (rule.name = "div-self" ∧ 0 < 8 ∧ 7#8 = 0#8) :=
  builtin_rule_holds_iff 8 (fun _ => ⟨8, 7#8⟩) _ (by simp [builtinRules, arithmeticRules])
    ⟨8, by decide, by decide⟩

/-- Some built-in rule changes a value: zero divided by itself is zero, and its replacement one. -/
theorem builtin_rules_not_sound :
    ¬ ∀ rule ∈ builtinRules, ∀ (width : Nat) (values : String → IntValue),
      SortConsistent width (fun name => (values name).1) rule → RuleHolds width values rule := by
  intro sound
  -- With zero for its variable the left-hand side of this rule is zero.
  have applied := sound (wilRuleCreateSimple "div-self"
    (.node .div [wilPatVar "x", wilPatVar "x"]) (.constInt 1))
    (by simp [builtinRules, arithmeticRules]) 32 (fun _ => ⟨32, 0#32⟩) ⟨32, by decide, by decide⟩
  have values := applied (fun _ => none) (fun _ _ => none)
  revert values
  decide

end Soundness

end Wirble
