import Mathlib.Data.List.Forall2
import Wirble.Mal.Execute
import Wirble.Mal.Peephole

/-! The stock peephole rules keep every execution and the single-assignment verdict. -/

namespace Wirble

/-- An instruction may stand for another: it computes the same and reads no more. -/
structure InstRefines (inst inst' : MALInst) : Prop where
  dst : inst'.dst = inst.dst
  reads : ∀ reg ∈ inst'.reads, reg ∈ inst.reads
  ends : malInstIsTerminator inst' = malInstIsTerminator inst
  -- Terminators stay as they are, because a jump may depend on all of the instruction.
  same : malInstIsTerminator inst = true → inst' = inst
  exec : ∀ (World : Type) (meaning : MALMeaning World) regs previous world,
    malExecInst meaning regs previous world inst' = malExecInst meaning regs previous world inst

namespace InstRefines

/-- An instruction refines itself. -/
theorem refl (inst : MALInst) : InstRefines inst inst :=
  ⟨rfl, fun _ read => read, rfl, fun _ => rfl, fun _ _ _ _ _ => rfl⟩

/-- Refinement of instructions is transitive. -/
theorem trans {a b c : MALInst} (first : InstRefines a b) (second : InstRefines b c) :
    InstRefines a c where
  dst := second.dst.trans first.dst
  reads reg read := first.reads reg (second.reads reg read)
  ends := second.ends.trans first.ends
  same terminator := (second.same (first.ends.trans terminator)).trans (first.same terminator)
  exec World meaning regs previous world :=
    (second.exec World meaning regs previous world).trans
      (first.exec World meaning regs previous world)

/-- A refining instruction writes the same register. -/
theorem defines {inst inst' : MALInst} (refines : InstRefines inst inst') :
    inst'.defines = inst.defines := by
  simp only [MALInst.defines, refines.dst]

/-- An instruction that computes one of its operands may be a copy of this operand. -/
theorem copy {inst : MALInst} {result : MALOperand}
    (inner : malInstIsTerminator inst = false)
    (value : ∀ (World : Type) (meaning : MALMeaning World) regs,
      malIntegerOp inst.opcode (inst.operands.map (malOperandWord meaning regs inst.type.width)) =
        some (malOperandWord meaning regs inst.type.width result))
    (reads : ∀ reg, result.reg? = some reg → reg ∈ inst.reads) :
    InstRefines inst { inst with opcode := .copy, operands := [result] } where
  dst := rfl
  reads reg read := by
    refine reads reg ?_
    simpa [MALInst.reads] using read
  ends := inner.symm
  same terminator := by
    rw [inner] at terminator
    cases terminator
  -- The copy writes the value of the operand, which is what the instruction computes.
  exec World meaning regs previous world := by
    rw [malExecInst, malExecInst, value World meaning regs]
    rfl

end InstRefines

/-- Blocks of one identifier whose instructions refine each other in place. -/
def BlockRefines (block block' : MALBlock) : Prop :=
  block'.id = block.id ∧ List.Forall₂ InstRefines block.insts block'.insts

/-- Functions whose blocks refine each other in place. -/
structure FunctionRefines (fn fn' : MALFunction) : Prop where
  paramCount : fn'.paramCount = fn.paramCount
  nextSSAReg : fn'.nextSSAReg = fn.nextSSAReg
  blocks : List.Forall₂ BlockRefines fn.blocks fn'.blocks

/-- A block refines itself. -/
theorem BlockRefines.refl (block : MALBlock) : BlockRefines block block :=
  ⟨rfl, List.forall₂_same.mpr fun inst _ => InstRefines.refl inst⟩

/-- Refinement of blocks is transitive. -/
theorem BlockRefines.trans {a b c : MALBlock} (first : BlockRefines a b)
    (second : BlockRefines b c) : BlockRefines a c :=
  ⟨second.1.trans first.1, @Search.forall₂_trans _ InstRefines (fun _ _ _ => .trans) _ _ _ first.2 second.2⟩

namespace FunctionRefines

/-- A function refines itself. -/
theorem refl (fn : MALFunction) : FunctionRefines fn fn :=
  ⟨rfl, rfl, List.forall₂_same.mpr fun block _ => BlockRefines.refl block⟩

/-- Refinement of functions is transitive. -/
theorem trans {a b c : MALFunction} (first : FunctionRefines a b) (second : FunctionRefines b c) :
    FunctionRefines a c :=
  ⟨second.paramCount.trans first.paramCount, second.nextSSAReg.trans first.nextSSAReg,
    @Search.forall₂_trans _ BlockRefines (fun _ _ _ => .trans) _ _ _ first.blocks second.blocks⟩

variable {fn fn' : MALFunction}

/-- Numbers name blocks at the same places. -/
theorem blockById (refines : FunctionRefines fn fn') :
    malBlockById fn'.blocks = malBlockById fn.blocks := by
  -- The numbers of the blocks are compared one by one, and they agree.
  funext id
  have blocks := refines.blocks
  generalize fn.blocks = list at blocks ⊢
  generalize fn'.blocks = list' at blocks ⊢
  unfold malBlockById
  induction blocks with
  | nil => rfl
  | cons head tail ih => simp only [List.findIdx?_cons, head.1, ih]

/-- Both functions step alike from every state. -/
theorem step (refines : FunctionRefines fn fn') {World : Type} (meaning : MALMeaning World)
    (state : MALState World) : malStep meaning fn' state = malStep meaning fn state := by
  unfold malStep
  rw [refines.blockById]
  rcases Search.forall₂_getElem? refines.blocks state.block with
    ⟨absent, absent'⟩ | ⟨block, block', found, found', -, insts⟩
  · rw [absent, absent']
  · rw [found, found']
    simp only [Option.bind_eq_bind, Option.bind_some]
    rcases Search.forall₂_getElem? insts state.index with
      ⟨absent, absent'⟩ | ⟨inst, inst', here, here', related⟩
    · rw [absent, absent']
    · rw [here, here']
      simp only
      -- A terminator is the same instruction, and any other computes the same result.
      by_cases terminator : malInstIsTerminator inst = true
      · rw [related.same terminator]
      · have terminator' : ¬ malInstIsTerminator inst' = true := by rwa [related.ends]
        rw [if_neg terminator, if_neg terminator', related.exec World meaning]
        simp only [malWriteReg, related.defines]

/-- Both functions have the same executions. -/
theorem run (refines : FunctionRefines fn fn') {World : Type} (meaning : MALMeaning World)
    (steps : Nat) (state : MALState World) :
    malRun meaning fn' steps state = malRun meaning fn steps state := by
  induction steps generalizing state with
  | zero => rfl
  | succ steps ih =>
    -- One step is the same, and so are the steps that follow.
    rw [malRun, malRun, refines.step meaning state]
    cases malStep meaning fn state with
    | none => rfl
    | some next => exact ih next

/-- The instructions of the functions refine each other one by one. -/
theorem insts (refines : FunctionRefines fn fn') :
    List.Forall₂ InstRefines fn.insts fn'.insts := by
  -- The blocks are related in order, so their instructions are as well.
  have blocks := refines.blocks
  unfold MALFunction.insts
  generalize fn.blocks = list at blocks ⊢
  generalize fn'.blocks = list' at blocks ⊢
  induction blocks with
  | nil => exact .nil
  | cons head tail ih =>
    simp only [List.flatMap_cons]
    exact List.rel_append head.2 ih

/-- The verifier accepts a function that reads no more than an accepted one. -/
theorem verifySSA (refines : FunctionRefines fn fn') (accepted : malVerifySSA fn = true) :
    malVerifySSA fn' = true := by
  have insts := refines.insts
  unfold malVerifySSA at accepted ⊢
  rw [refines.paramCount, refines.nextSSAReg]
  generalize List.range (min fn.paramCount fn.nextSSAReg) = defined at accepted ⊢
  generalize fn.insts = list at insts accepted ⊢
  generalize fn'.insts = list' at insts ⊢
  -- The scan of the refined instructions passes through the same marked registers.
  induction insts generalizing defined with
  | nil => exact accepted
  | @cons inst inst' rest rest' head tail ih =>
    rw [List.foldlM_cons, malVerifyInst_eq] at accepted ⊢
    by_cases passes : InstPasses fn.nextSSAReg defined inst
    -- A refined instruction reads no more and defines the same.
    · have passes' : InstPasses fn.nextSSAReg defined inst' := by
        refine ⟨fun reg read => passes.1 reg (head.reads reg read), ?_⟩
        rw [head.defines]
        exact passes.2
      rw [if_pos passes] at accepted
      rw [if_pos passes', head.defines]
      exact ih _ accepted
    · rw [if_neg passes] at accepted
      cases accepted

end FunctionRefines

/-- A small immediate has the same value at every width. -/
theorem malOperandWord_immInt {World : Type} (meaning : MALMeaning World) (regs : Nat → BitVec 64)
    (width : Nat) {value : Nat} {type : MALType} (small : 2 * value < 2 ^ type.width) :
    malOperandWord meaning regs width (malOperandImmInt value type) = BitVec.ofNat width value := by
  have own : malOwnWord meaning regs (malOperandImmInt value type) =
      BitVec.ofNat type.width value := by
    show (BitVec.ofInt 64 (value : Int)).setWidth type.width = _
    rw [BitVec.ofInt_natCast, BitVec.setWidth_ofNat_of_le type.width_le]
  obtain ⟨bySign, byZeros⟩ := Word.ofNat_widen small
  -- Whichever way the type widens, the word stays the same number.
  rw [malOperandWord, own]
  split
  · exact bySign
  · exact byZeros

/-- A rule whose replacements refine what they replace and turn another opcode into a copy. -/
def RuleSound (rule : MALRewriteRule) : Prop :=
  ∀ inst bindings, malMrsMatchRule rule inst = some bindings →
    InstRefines inst (malMrsBuildReplacement rule inst bindings) ∧ inst.opcode ≠ .copy ∧
      (malMrsBuildReplacement rule inst bindings).opcode = .copy

/-- A rule with its immediate on the right matches this immediate and binds the other operand. -/
theorem malMrsMatchRule_right {name : String} {opcode : MALOpcode} {value : Int}
    {result : MALRuleOperandPattern} {inst : MALInst} {bindings : MALBindings}
    (found : malMrsMatchRule (malRuleRight name opcode value result) inst = some bindings) :
    ∃ x, inst.opcode = opcode ∧ inst.operands = [x, malOperandImmInt value .i32] ∧
      bindings = [("x", x)] := by
  unfold malMrsMatchRule malRuleRight at found
  split at found
  · rename_i shape
    obtain ⟨sameOpcode, count⟩ := shape
    obtain ⟨x, y, operands⟩ := List.length_eq_two.mp count.symm
    rw [operands] at found
    -- The variable is bound first, then the immediate is compared.
    by_cases equal : malOperandEqual (malOperandImmInt value .i32) y = true
    · rw [← malOperandEqual_immInt.mp equal] at operands
      simp [malPatX, malPatImm, malMatchOperand, malBindingCap, equal] at found
      exact ⟨x, sameOpcode.symm, operands, found.symm⟩
    · simp [malPatX, malPatImm, malMatchOperand, malBindingCap, equal] at found
  · cases found

/-- A rule with its immediate on the left matches this immediate and binds the other operand. -/
theorem malMrsMatchRule_left {name : String} {opcode : MALOpcode} {value : Int}
    {result : MALRuleOperandPattern} {inst : MALInst} {bindings : MALBindings}
    (found : malMrsMatchRule (malRuleLeft name opcode value result) inst = some bindings) :
    ∃ x, inst.opcode = opcode ∧ inst.operands = [malOperandImmInt value .i32, x] ∧
      bindings = [("x", x)] := by
  unfold malMrsMatchRule malRuleLeft at found
  split at found
  · rename_i shape
    obtain ⟨sameOpcode, count⟩ := shape
    -- The match fixes the opcode and two operands, of which the first is the immediate.
    obtain ⟨y, x, operands⟩ := List.length_eq_two.mp count.symm
    rw [operands] at found
    by_cases equal : malOperandEqual (malOperandImmInt value .i32) y = true
    · rw [← malOperandEqual_immInt.mp equal] at operands
      simp [malPatX, malPatImm, malMatchOperand, malBindingCap, equal] at found
      exact ⟨x, sameOpcode.symm, operands, found.symm⟩
    · simp [malPatX, malPatImm, malMatchOperand, malBindingCap, equal] at found
  · cases found

/-- The opcodes that the stock rules rewrite. -/
def MALOpcode.isRewritten : MALOpcode → Bool
  | .add | .sub | .mul | .and | .or | .xor | .shl | .ashr => true
  | _ => false

/-- An opcode that a rule matches neither ends a block nor is a copy. -/
theorem MALOpcode.isRewritten_inner {opcode : MALOpcode} (rewritten : opcode.isRewritten = true) :
    opcode.isTerminator = false ∧ opcode ≠ .copy := by
  cases opcode <;> first | exact ⟨rfl, by decide⟩ | cases rewritten

/-- Dropping the right operand is sound where the immediate is neutral. -/
theorem ruleSound_right_var (name : String) {opcode : MALOpcode} (value : Nat)
    (rewritten : opcode.isRewritten = true) (small : 2 * value < 2 ^ MALType.i32.width)
    (neutral : ∀ {width : Nat} (x : BitVec width),
      malIntegerOp opcode [x, BitVec.ofNat width value] = some x) :
    RuleSound (malRuleRight name opcode value malPatX) := by
  intro inst bindings found
  -- The instruction has the neutral immediate on its right, and becomes a copy of its left operand.
  obtain ⟨x, rfl, operands, rfl⟩ := malMrsMatchRule_right found
  obtain ⟨inner, notCopy⟩ := MALOpcode.isRewritten_inner rewritten
  refine ⟨InstRefines.copy inner (fun World meaning regs => ?_) (fun reg read => ?_), notCopy, rfl⟩
  · simp only [operands, List.map_cons, List.map_nil, malOperandWord_immInt _ _ _ small, neutral]
  · simp [MALInst.reads, operands, read]

/-- Dropping the left operand is sound where the immediate is neutral. -/
theorem ruleSound_left_var (name : String) {opcode : MALOpcode} (value : Nat)
    (rewritten : opcode.isRewritten = true) (small : 2 * value < 2 ^ MALType.i32.width)
    (neutral : ∀ {width : Nat} (x : BitVec width),
      malIntegerOp opcode [BitVec.ofNat width value, x] = some x) :
    RuleSound (malRuleLeft name opcode value malPatX) := by
  intro inst bindings found
  -- The instruction has the neutral immediate on its left, and becomes a copy of its right operand.
  obtain ⟨x, rfl, operands, rfl⟩ := malMrsMatchRule_left found
  obtain ⟨inner, notCopy⟩ := MALOpcode.isRewritten_inner rewritten
  refine ⟨InstRefines.copy inner (fun World meaning regs => ?_) (fun reg read => ?_), notCopy, rfl⟩
  · simp only [operands, List.map_cons, List.map_nil, malOperandWord_immInt _ _ _ small, neutral]
  · simp [MALInst.reads, operands, read]

/-- Keeping only the right immediate is sound where it absorbs the other operand. -/
theorem ruleSound_right_imm (name : String) {opcode : MALOpcode} (value : Nat)
    (rewritten : opcode.isRewritten = true) (small : 2 * value < 2 ^ MALType.i32.width)
    (absorbs : ∀ {width : Nat} (x : BitVec width),
      malIntegerOp opcode [x, BitVec.ofNat width value] = some (BitVec.ofNat width value)) :
    RuleSound (malRuleRight name opcode value (malPatImm value)) := by
  intro inst bindings found
  obtain ⟨x, rfl, operands, rfl⟩ := malMrsMatchRule_right found
  obtain ⟨inner, notCopy⟩ := MALOpcode.isRewritten_inner rewritten
  refine ⟨InstRefines.copy inner (fun World meaning regs => ?_) (fun reg read => ?_), notCopy, rfl⟩
  · simp only [operands, List.map_cons, List.map_nil, malOperandWord_immInt _ _ _ small, absorbs]
  · -- An immediate reads no register.
    cases read

/-- Keeping only the left immediate is sound where it absorbs the other operand. -/
theorem ruleSound_left_imm (name : String) {opcode : MALOpcode} (value : Nat)
    (rewritten : opcode.isRewritten = true) (small : 2 * value < 2 ^ MALType.i32.width)
    (absorbs : ∀ {width : Nat} (x : BitVec width),
      malIntegerOp opcode [BitVec.ofNat width value, x] = some (BitVec.ofNat width value)) :
    RuleSound (malRuleLeft name opcode value (malPatImm value)) := by
  intro inst bindings found
  -- The result is the immediate itself, so no register is read any more.
  obtain ⟨x, rfl, operands, rfl⟩ := malMrsMatchRule_left found
  obtain ⟨inner, notCopy⟩ := MALOpcode.isRewritten_inner rewritten
  refine ⟨InstRefines.copy inner (fun World meaning regs => ?_) (fun reg read => ?_), notCopy, rfl⟩
  · simp only [operands, List.map_cons, List.map_nil, malOperandWord_immInt _ _ _ small, absorbs]
  · cases read

/-- The laws of words behind the stock rules: an immediate is neutral, or absorbs the other
operand. -/
inductive RuleLaw : MALRewriteRule → Prop where
  | rightVar (name : String) {opcode : MALOpcode} (value : Nat)
    (rewritten : opcode.isRewritten = true) (small : 2 * value < 2 ^ MALType.i32.width)
    (neutral : ∀ {width : Nat} (x : BitVec width),
      malIntegerOp opcode [x, BitVec.ofNat width value] = some x) :
    RuleLaw (malRuleRight name opcode value malPatX)
  | leftVar (name : String) {opcode : MALOpcode} (value : Nat)
    (rewritten : opcode.isRewritten = true) (small : 2 * value < 2 ^ MALType.i32.width)
    (neutral : ∀ {width : Nat} (x : BitVec width),
      malIntegerOp opcode [BitVec.ofNat width value, x] = some x) :
    RuleLaw (malRuleLeft name opcode value malPatX)
  | rightImm (name : String) {opcode : MALOpcode} (value : Nat)
    (rewritten : opcode.isRewritten = true) (small : 2 * value < 2 ^ MALType.i32.width)
    (absorbs : ∀ {width : Nat} (x : BitVec width),
      malIntegerOp opcode [x, BitVec.ofNat width value] = some (BitVec.ofNat width value)) :
    RuleLaw (malRuleRight name opcode value (malPatImm value))
  | leftImm (name : String) {opcode : MALOpcode} (value : Nat)
    (rewritten : opcode.isRewritten = true) (small : 2 * value < 2 ^ MALType.i32.width)
    (absorbs : ∀ {width : Nat} (x : BitVec width),
      malIntegerOp opcode [BitVec.ofNat width value, x] = some (BitVec.ofNat width value)) :
    RuleLaw (malRuleLeft name opcode value (malPatImm value))

/-- A rule with one of the laws of words is sound. -/
theorem RuleLaw.sound {rule : MALRewriteRule} (law : RuleLaw rule) : RuleSound rule := by
  -- Each law is one of the four lemmas above.
  cases law with
  | rightVar name value rewritten small neutral =>
    exact ruleSound_right_var name value rewritten small neutral
  | leftVar name value rewritten small neutral =>
    exact ruleSound_left_var name value rewritten small neutral
  | rightImm name value rewritten small absorbs =>
    exact ruleSound_right_imm name value rewritten small absorbs
  | leftImm name value rewritten small absorbs =>
    exact ruleSound_left_imm name value rewritten small absorbs

/-- Every stock rule has such a law. -/
theorem malPeepholeRules_lawful : ∀ rule ∈ malPeepholeRules, RuleLaw rule := by
  -- One law of words for each rule, in the order of the file.
  simp only [malPeepholeRules, List.forall_mem_cons, List.not_mem_nil, false_implies,
    implies_true, and_true]
  refine ⟨?_, ?_, ?_, ?_, ?_, ?_, ?_, ?_, ?_, ?_, ?_, ?_⟩
  · exact .rightVar _ 0 rfl (by decide) fun x => by simp [malIntegerOp]
  · exact .leftVar _ 0 rfl (by decide) fun x => by simp [malIntegerOp]
  · exact .rightVar _ 0 rfl (by decide) fun x => by simp [malIntegerOp]
  · exact .rightImm _ 0 rfl (by decide) fun x => by simp [malIntegerOp]
  · exact .leftImm _ 0 rfl (by decide) fun x => by simp [malIntegerOp]
  · exact .rightVar _ 1 rfl (by decide) fun x => by simp [malIntegerOp]
  · exact .leftVar _ 1 rfl (by decide) fun x => by simp [malIntegerOp]
  · exact .rightImm _ 0 rfl (by decide) fun x => by simp [malIntegerOp]
  · exact .rightVar _ 0 rfl (by decide) fun x => by simp [malIntegerOp]
  · exact .rightVar _ 0 rfl (by decide) fun x => by simp [malIntegerOp]
  · exact .rightVar _ 0 rfl (by decide) fun x => by
      simp only [malIntegerOp, Word.shl_zero]
  · exact .rightVar _ 0 rfl (by decide) fun x => by
      simp only [malIntegerOp, Word.shr_zero]

/-- Every stock rule is sound. -/
theorem malPeepholeRules_sound : ∀ rule ∈ malPeepholeRules, RuleSound rule :=
  fun rule stock => (malPeepholeRules_lawful rule stock).sound

/-- The number of instructions that are not copies. -/
def malUncopied (insts : List MALInst) : Nat := insts.countP (·.opcode ≠ .copy)

/-- Rewriting an instruction with sound rules turns it into a copy that refines it. -/
theorem malRewriteInst_refines {rules : List MALRewriteRule}
    (sound : ∀ rule ∈ rules, RuleSound rule) {inst inst' : MALInst}
    (rewritten : malRewriteInst rules inst = some inst') :
    InstRefines inst inst' ∧ inst.opcode ≠ .copy ∧ inst'.opcode = .copy := by
  obtain ⟨rule, member, applied⟩ := List.exists_of_findSome?_eq_some rewritten
  obtain ⟨bindings, found, rfl⟩ := Option.map_eq_some_iff.mp applied
  exact sound rule member inst bindings found

/-- One rewrite refines the function and leaves one instruction less that is not a copy. -/
theorem malApplyOnePeephole_refines {rules : List MALRewriteRule}
    (sound : ∀ rule ∈ rules, RuleSound rule) {fn fn' : MALFunction}
    (applied : malApplyOnePeephole rules fn = some fn') :
    FunctionRefines fn fn' ∧ malUncopied fn'.insts + 1 = malUncopied fn.insts := by
  -- The instruction that is rewritten stands in one block of the function.
  obtain ⟨blocks, replaced, rfl⟩ := Option.map_eq_some_iff.mp applied
  obtain ⟨before, block, block', after, old, rfl, inBlock⟩ := Search.replaceFirst_some replaced
  obtain ⟨insts, inner, rfl⟩ := Option.map_eq_some_iff.mp inBlock
  obtain ⟨front, inst, inst', back, code, rfl, rewritten⟩ := Search.replaceFirst_some inner
  obtain ⟨refines, notCopy, copy⟩ := malRewriteInst_refines sound rewritten
  have inPlace : BlockRefines block { block with insts := front ++ inst' :: back } := by
    refine ⟨rfl, ?_⟩
    rw [code]
    exact Search.forall₂_replace InstRefines.refl refines front back
  refine ⟨⟨rfl, rfl, ?_⟩, ?_⟩
  · rw [old]
    exact Search.forall₂_replace BlockRefines.refl inPlace before after
  · -- Only the rewritten instruction is counted differently.
    simp [malUncopied, MALFunction.insts, old, code, notCopy, copy]
    omega

/-- The pass ends on every function. Its result has the same executions, whatever the registers
hold at the start and the other instructions do, is accepted by the verifier if the function was,
and no rule matches any of its instructions. -/
theorem malPeephole_correct (fn : MALFunction) :
    ∃ changed final,
      (∀ rounds, fn.insts.length < rounds →
        malApplyPeepholeToFixpoint malPeepholeRules rounds fn = some (changed, final)) ∧
      (∀ (World : Type) (meaning : MALMeaning World) (steps : Nat) (state : MALState World),
        malRun meaning final steps state = malRun meaning fn steps state) ∧
      (malVerifySSA fn = true → malVerifySSA final = true) ∧
      ∀ inst ∈ final.insts, ∀ rule ∈ malPeepholeRules, malMrsMatchRule rule inst = none := by
  obtain ⟨changed, final, stuck, refines, runs⟩ :=
    Search.whileSome_ends (fun fn => malUncopied fn.insts)
      (fun before after applied => by
        have step := (malApplyOnePeephole_refines malPeepholeRules_sound applied).2
        omega)
      FunctionRefines.refl (fun _ _ _ => FunctionRefines.trans)
      (fun before after applied =>
        (malApplyOnePeephole_refines malPeepholeRules_sound applied).1) fn
  refine ⟨changed, final, fun rounds enough => ?_, fun World => refines.run, refines.verifySSA, ?_⟩
  · exact runs rounds (Nat.lt_of_le_of_lt List.countP_le_length enough)
  · intro inst member rule stock
    obtain ⟨block, place, inside⟩ := List.mem_flatMap.mp member
    -- Where no instruction is rewritten, no rule matches.
    have blocks := Search.replaceFirst_none.mp (Option.map_eq_none_iff.mp stuck) block place
    have insts := Search.replaceFirst_none.mp (Option.map_eq_none_iff.mp blocks) inst inside
    exact Option.map_eq_none_iff.mp (List.findSome?_eq_none_iff.mp insts rule stock)

end Wirble
