import Wirble.Mal.Ir
import Wirble.Library.Decimal
import Wirble.Library.Search

/-! The peephole rewriter: rules, their file, matching, replacement and the fixpoint loop. -/

namespace Wirble

/-- Operand patterns of a peephole rule. -/
inductive MALRuleOperandPattern where
  | any
  | var (name : String)
  /-- The immediate and block kinds, which all compare the operand stored in the pattern. -/
  | operand (operand : MALOperand)
  deriving DecidableEq, Repr

/-- A peephole rule replaces one instruction by one instruction. -/
structure MALRewriteRule where
  name : String
  matchOpcode : MALOpcode
  matchOperands : List MALRuleOperandPattern
  replaceOpcode : MALOpcode
  replaceOperands : List MALRuleOperandPattern
  deriving DecidableEq, Repr

/-- Bound variables in the order in which they were bound. -/
abbrev MALBindings := List (String × MALOperand)

/-- The number of variables that the pass leaves room for. -/
def malBindingCap : Nat := 8

/-- Match one operand, where a variable that occurs again must bind an equal operand. -/
def malMatchOperand (bindings : MALBindings) :
    MALRuleOperandPattern × MALOperand → Option MALBindings
  | (.any, _) => some bindings
  | (.operand expected, operand) =>
    if malOperandEqual expected operand then some bindings else none
  | (.var name, operand) =>
    match bindings.lookup name with
    | some bound => if malOperandEqual bound operand then some bindings else none
    | none =>
      if malBindingCap ≤ bindings.length then none else some (bindings ++ [(name, operand)])

/-- Opcode and operand count are compared first, then the operands from left to right. -/
def malMrsMatchRule (rule : MALRewriteRule) (inst : MALInst) : Option MALBindings :=
  if rule.matchOpcode = inst.opcode ∧ rule.matchOperands.length = inst.operands.length then
    (rule.matchOperands.zip inst.operands).foldlM malMatchOperand []
  else none

/-- The operands of a replacement, which end at the first variable that is not bound. -/
def malBuildOperands (bindings : MALBindings) : List MALRuleOperandPattern → List MALOperand
  | [] => []
  | .any :: rest => malBuildOperands bindings rest
  | .operand operand :: rest => operand :: malBuildOperands bindings rest
  | .var name :: rest =>
    match bindings.lookup name with
    | some operand => operand :: malBuildOperands bindings rest
    | none => []

/-- A replacement keeps the type, the destination and the identifier of the instruction. -/
def malMrsBuildReplacement (rule : MALRewriteRule) (inst : MALInst) (bindings : MALBindings) :
    MALInst :=
  { inst with
    opcode := rule.replaceOpcode
    operands := malBuildOperands bindings rule.replaceOperands }

/-- Try the rules on one instruction, in the order of the file. -/
def malRewriteInst (rules : List MALRewriteRule) (inst : MALInst) : Option MALInst :=
  rules.findSome? fun rule => (malMrsMatchRule rule inst).map (malMrsBuildReplacement rule inst)

/-- Rewrite the first instruction of a block that a rule matches. -/
def malRewriteBlock (rules : List MALRewriteRule) (block : MALBlock) : Option MALBlock :=
  (Search.replaceFirst (malRewriteInst rules) block.insts).map fun insts =>
    { block with insts := insts }

/-- Rewrite the first instruction in list order that a rule matches, if there is one. -/
def malApplyOnePeephole (rules : List MALRewriteRule) (fn : MALFunction) : Option MALFunction :=
  (Search.replaceFirst (malRewriteBlock rules) fn.blocks).map fun blocks =>
    { fn with blocks := blocks }

/-- The loop starts over after every rewrite; the bound on its rounds is not in the source. -/
def malApplyPeepholeToFixpoint (rules : List MALRewriteRule) (rounds : Nat) (fn : MALFunction) :
    Option (Bool × MALFunction) :=
  Search.whileSome (malApplyOnePeephole rules) rounds fn

section Loader

def malParseOpcode (text : String) : MALOpcode :=
  if text = "copy" then .copy
  else if text = "add" then .add
  else if text = "sub" then .sub
  else if text = "mul" then .mul
  else if text = "sdiv" ∨ text = "div" then .sdiv
  else if text = "and" then .and
  else if text = "or" then .or
  else if text = "xor" then .xor
  else if text = "shl" then .shl
  else if text = "ashr" ∨ text = "shr" then .ashr
  else if text = "ret" then .ret
  else .target

/-- A number that fills the whole text. -/
def malParseInt64 (text : List Char) : Option Int := Decimal.parseInt64 text

/-- Every number in a rule file is an immediate of type `i32`. -/
def malLoadOperandPattern (text : String) : Option MALRuleOperandPattern :=
  if text = "_" then some .any
  else
    match text.toList with
    | '?' :: name => some (.var (String.ofList name))
    | chars => (malParseInt64 chars).map fun imm => .operand (malOperandImmInt imm .i32)

/-- A pattern list is an opcode, which must be known, and its operands. -/
def malLoadPatternList : List String → Option (MALOpcode × List MALRuleOperandPattern)
  | [] => none
  | head :: rest =>
    if malParseOpcode head = .target then none
    else (rest.mapM malLoadOperandPattern).map fun patterns => (malParseOpcode head, patterns)

/-- The atoms of a `(rule :name … :match (…) :replace (…))` form. -/
structure MALRuleForm where
  name : Option String
  matchAtoms : List String
  replaceAtoms : List String
  deriving Repr

def malLoadRule (form : MALRuleForm) : Option MALRewriteRule := do
  let (matchOpcode, matchOperands) ← malLoadPatternList form.matchAtoms
  let (replaceOpcode, replaceOperands) ← malLoadPatternList form.replaceAtoms
  return ⟨form.name.getD "rule", matchOpcode, matchOperands, replaceOpcode, replaceOperands⟩

/-- One rule that does not load makes the whole file fail. -/
def malMrsLoad (forms : List MALRuleForm) : Option (List MALRewriteRule) :=
  forms.mapM malLoadRule

/-- The forms of `mal_peephole.wrs`. -/
def malPeepholeFile : List MALRuleForm :=
  [⟨some "add-zero-right", ["add", "?x", "0"], ["copy", "?x"]⟩,
    ⟨some "add-zero-left", ["add", "0", "?x"], ["copy", "?x"]⟩,
    ⟨some "sub-zero", ["sub", "?x", "0"], ["copy", "?x"]⟩,
    ⟨some "mul-zero-right", ["mul", "?x", "0"], ["copy", "0"]⟩,
    ⟨some "mul-zero-left", ["mul", "0", "?x"], ["copy", "0"]⟩,
    ⟨some "mul-one-right", ["mul", "?x", "1"], ["copy", "?x"]⟩,
    ⟨some "mul-one-left", ["mul", "1", "?x"], ["copy", "?x"]⟩,
    ⟨some "and-zero-right", ["and", "?x", "0"], ["copy", "0"]⟩,
    ⟨some "or-zero-right", ["or", "?x", "0"], ["copy", "?x"]⟩,
    ⟨some "xor-zero-right", ["xor", "?x", "0"], ["copy", "?x"]⟩,
    ⟨some "shl-zero-right", ["shl", "?x", "0"], ["copy", "?x"]⟩,
    ⟨some "ashr-zero-right", ["shr", "?x", "0"], ["copy", "?x"]⟩]

end Loader

section StockRules

/-- The variable and the immediates of the stock rules. -/
def malPatX : MALRuleOperandPattern := .var "x"

def malPatImm (value : Int) : MALRuleOperandPattern := .operand (malOperandImmInt value .i32)

/-- A rule with the variable on the left and an immediate on the right. -/
def malRuleRight (name : String) (opcode : MALOpcode) (value : Int)
    (result : MALRuleOperandPattern) : MALRewriteRule :=
  ⟨name, opcode, [malPatX, malPatImm value], .copy, [result]⟩

/-- A rule with an immediate on the left and the variable on the right. -/
def malRuleLeft (name : String) (opcode : MALOpcode) (value : Int)
    (result : MALRuleOperandPattern) : MALRewriteRule :=
  ⟨name, opcode, [malPatImm value, malPatX], .copy, [result]⟩

/-- The rules of `mal_peephole.wrs` in memory. -/
def malPeepholeRules : List MALRewriteRule :=
  [malRuleRight "add-zero-right" .add 0 malPatX,
    malRuleLeft "add-zero-left" .add 0 malPatX,
    malRuleRight "sub-zero" .sub 0 malPatX,
    malRuleRight "mul-zero-right" .mul 0 (malPatImm 0),
    malRuleLeft "mul-zero-left" .mul 0 (malPatImm 0),
    malRuleRight "mul-one-right" .mul 1 malPatX,
    malRuleLeft "mul-one-left" .mul 1 malPatX,
    malRuleRight "and-zero-right" .and 0 (malPatImm 0),
    malRuleRight "or-zero-right" .or 0 malPatX,
    malRuleRight "xor-zero-right" .xor 0 malPatX,
    malRuleRight "shl-zero-right" .shl 0 malPatX,
    malRuleRight "ashr-zero-right" .ashr 0 malPatX]

/-- Loading the file gives the stock rules. -/
theorem malMrsLoad_peepholeFile : malMrsLoad malPeepholeFile = some malPeepholeRules := by
  decide

end StockRules

end Wirble
