import Wirble.Mal.PeepholeSound
import Wirble.Wvm.Lowered

/-! The peephole pass keeps what a function computes on the target. -/

namespace Wirble

/-- An instruction may stand for another on the target: it gives the same values, supports its
inputs where the other does, and is as small. -/
structure ValueRefines (inst inst' : MALInst) : Prop where
  dst : inst'.dst = inst.dst
  same : inst.opcode = .ret → inst' = inst
  inner : inst.opcode ≠ .ret → inst'.opcode ≠ .ret
  small : inst.Small → inst'.Small
  value : ∀ now inputs value, malInputs now inst = some inputs →
    malDenote inst.opcode inputs = some value →
    ∃ inputs', malInputs now inst' = some inputs' ∧ malDenote inst'.opcode inputs' = some value ∧
      (WVMSupports inst.opcode inputs → WVMSupports inst'.opcode inputs')

namespace ValueRefines

/-- An instruction refines itself. -/
theorem refl (inst : MALInst) : ValueRefines inst inst :=
  ⟨rfl, fun _ => rfl, fun other => other, fun small => small,
    fun _ inputs _ read denoted => ⟨inputs, read, denoted, fun supported => supported⟩⟩

/-- Refinement of values is transitive. -/
theorem trans {a b c : MALInst} (first : ValueRefines a b) (second : ValueRefines b c) :
    ValueRefines a c where
  dst := second.dst.trans first.dst
  same ret := by
    have same := first.same ret
    rw [same] at second
    exact second.same ret
  inner other := second.inner (first.inner other)
  small small := second.small (first.small small)
  value now inputs value read denoted := by
    -- Both refinements keep the inputs readable and the value the same.
    obtain ⟨inputs', read', denoted', supports⟩ := first.value now inputs value read denoted
    obtain ⟨inputs'', read'', denoted'', supports'⟩ := second.value now inputs' value read' denoted'
    exact ⟨inputs'', read'', denoted'', fun supported => supports' (supports supported)⟩

/-- An instruction that gives the value of one of its operands may be a copy of this operand. -/
theorem copy {inst : MALInst} {operand : MALOperand} (other : inst.opcode ≠ .ret)
    (member : operand ∈ inst.operands)
    (value : ∀ now inputs value, malInputs now inst = some inputs →
      malDenote inst.opcode inputs = some value → malOperandValue now operand = some value) :
    ValueRefines inst { inst with opcode := .copy, operands := [operand] } where
  dst := rfl
  same ret := absurd ret other
  inner _ := by
    intro ret
    cases ret
  small small := by
    refine ⟨?_, small.dst⟩
    rw [List.forall_mem_singleton]
    exact small.operands operand member
  value now inputs value' read denoted := by
    -- The copy has the value as its only input.
    refine ⟨[value'], ?_, malDenote_copy value', fun _ => trivial⟩
    rw [malInputs, Dag.mapM_eq_some_iff]
    exact .cons (value now inputs value' read denoted) .nil

end ValueRefines

/-- The inputs of an instruction with two operands. -/
theorem malInputs_pair {now : Nat → Option MALValue} {inst : MALInst} {a b : MALOperand}
    {inputs : List MALValue} (operands : inst.operands = [a, b])
    (read : malInputs now inst = some inputs) :
    ∃ x y, malOperandValue now a = some x ∧ malOperandValue now b = some y ∧ inputs = [x, y] := by
  rw [malInputs, operands, Dag.mapM_eq_some_iff] at read
  -- Two operands have two values.
  cases read with
  | cons first rest =>
    cases rest with
    | cons second last =>
      cases last
      exact ⟨_, _, first, second, rfl⟩

/-- A small immediate is the same integer at any width. -/
theorem malOperandValue_immInt (now : Nat → Option MALValue) (value : Nat) :
    malOperandValue now (malOperandImmInt value .i32) = some (.int (BitVec.ofNat 32 value)) := by
  show some (MALValue.int ((BitVec.ofInt 64 value).setWidth 32)) = _
  rw [setWidth_immediate, BitVec.ofInt_natCast]

/-- Operands of two sorts denote nothing together. -/
theorem malDenote_int_right {opcode : MALOpcode} {x value : MALValue} {y : BitVec 32}
    (denoted : malDenote opcode [x, .int y] = some value) : ∃ word, x = .int word := by
  cases x with
  | int word => exact ⟨word, rfl⟩
  | truth _ => cases denoted

/-- What an operation with an integer on its left is defined for is an integer on its right. -/
theorem malDenote_int_left {opcode : MALOpcode} {y value : MALValue} {x : BitVec 32}
    (denoted : malDenote opcode [.int x, y] = some value) : ∃ word, y = .int word := by
  cases y with
  | int word => exact ⟨word, rfl⟩
  | truth _ => cases denoted

/-- What an integer operation of two words denotes. -/
theorem malDenote_word {opcode : MALOpcode} {x y word : BitVec 32}
    (computes : malIntegerOp opcode [x, y] = some word) :
    malDenote opcode [.int x, .int y] = some (.int word) := by
  rw [malDenote, malDenoteWords, computes, Option.map_some, Option.some_or]

/-- A rule whose replacements may stand for what they replace on the target. -/
theorem RuleLaw.value {rule : MALRewriteRule} (law : RuleLaw rule) {inst : MALInst}
    {bindings : MALBindings} (found : malMrsMatchRule rule inst = some bindings) :
    ValueRefines inst (malMrsBuildReplacement rule inst bindings) := by
  have running : ∀ {opcode : MALOpcode}, opcode.isRewritten = true → opcode ≠ .ret := by
    intro opcode rewritten
    cases opcode <;> first | decide | cases rewritten
  -- Each shape reads its two operands, of which one is the immediate.
  cases law with
  | rightVar name value rewritten small neutral =>
    obtain ⟨x, rfl, operands, rfl⟩ := malMrsMatchRule_right found
    refine ValueRefines.copy (running rewritten) (by simp [operands])
      fun now inputs result read denoted => ?_
    obtain ⟨a, b, left, right, rfl⟩ := malInputs_pair operands read
    rw [malOperandValue_immInt] at right
    cases right
    obtain ⟨word, rfl⟩ := malDenote_int_right denoted
    rw [malDenote_word (neutral word)] at denoted
    rw [left, ← denoted]
  -- The neutral operand may stand on either side.
  | leftVar name value rewritten small neutral =>
    obtain ⟨x, rfl, operands, rfl⟩ := malMrsMatchRule_left found
    refine ValueRefines.copy (running rewritten) (by simp [operands])
      fun now inputs result read denoted => ?_
    obtain ⟨a, b, left, right, rfl⟩ := malInputs_pair operands read
    rw [malOperandValue_immInt] at left
    cases left
    obtain ⟨word, rfl⟩ := malDenote_int_left denoted
    rw [malDenote_word (neutral word)] at denoted
    rw [right, ← denoted]
  -- The absorbing operand is itself the value.
  | rightImm name value rewritten small absorbs =>
    obtain ⟨x, rfl, operands, rfl⟩ := malMrsMatchRule_right found
    refine ValueRefines.copy (running rewritten) (by simp [operands])
      fun now inputs result read denoted => ?_
    obtain ⟨a, b, left, right, rfl⟩ := malInputs_pair operands read
    have immediate := right
    rw [malOperandValue_immInt] at right
    cases right
    obtain ⟨word, rfl⟩ := malDenote_int_right denoted
    rw [malDenote_word (absorbs word)] at denoted
    rw [immediate, ← denoted]
  | leftImm name value rewritten small absorbs =>
    obtain ⟨x, rfl, operands, rfl⟩ := malMrsMatchRule_left found
    refine ValueRefines.copy (running rewritten) (by simp [operands])
      fun now inputs result read denoted => ?_
    obtain ⟨a, b, left, right, rfl⟩ := malInputs_pair operands read
    have immediate := left
    rw [malOperandValue_immInt] at left
    cases left
    obtain ⟨word, rfl⟩ := malDenote_int_left denoted
    rw [malDenote_word (absorbs word)] at denoted
    rw [immediate, ← denoted]

/-- Functions whose instructions may stand for each other in place, in as many blocks. -/
structure FunctionValueRefines (fn fn' : MALFunction) : Prop where
  blocks : fn'.blocks.length = fn.blocks.length
  insts : List.Forall₂ ValueRefines fn.insts fn'.insts

/-- One rewrite of the stock pass refines the function. -/
theorem malApplyOnePeephole_values {fn fn' : MALFunction}
    (applied : malApplyOnePeephole malPeepholeRules fn = some fn') :
    FunctionValueRefines fn fn' := by
  obtain ⟨blocks, replaced, rfl⟩ := Option.map_eq_some_iff.mp applied
  obtain ⟨before, block, block', after, old, rfl, inBlock⟩ := Search.replaceFirst_some replaced
  obtain ⟨insts, inner, rfl⟩ := Option.map_eq_some_iff.mp inBlock
  obtain ⟨front, inst, inst', back, code, rfl, rewritten⟩ := Search.replaceFirst_some inner
  obtain ⟨rule, member, matched⟩ := List.exists_of_findSome?_eq_some rewritten
  obtain ⟨bindings, found, rfl⟩ := Option.map_eq_some_iff.mp matched
  have refines := (malPeepholeRules_lawful rule member).value found
  refine ⟨?_, ?_⟩
  · show (before ++ _ :: after).length = fn.blocks.length
    rw [old, List.length_append, List.length_append, List.length_cons, List.length_cons]
  · -- Everything around the instruction stays in place.
    simp only [MALFunction.insts, old, code, List.flatMap_append, List.flatMap_cons,
      List.append_assoc, List.cons_append]
    rw [← List.append_assoc, ← List.append_assoc]
    exact Search.forall₂_replace ValueRefines.refl refines _ _

/-- The stock pass refines the function. -/
theorem malApplyPeepholeToFixpoint_values {fuel : Nat} {fn final : MALFunction} {changed : Bool}
    (ended : malApplyPeepholeToFixpoint malPeepholeRules fuel fn = some (changed, final)) :
    FunctionValueRefines fn final := by
  -- One pass refines, and refinement composes.
  refine @Search.whileSome_related _ (malApplyOnePeephole malPeepholeRules) FunctionValueRefines
    (fun fn => ⟨rfl, ?_⟩) (fun _ _ _ first second => ⟨?_, ?_⟩)
    (fun _ _ => malApplyOnePeephole_values) fuel fn final changed ended
  · exact List.forall₂_same.mpr fun inst _ => ValueRefines.refl inst
  · exact second.blocks.trans first.blocks
  · exact Search.forall₂_trans @ValueRefines.trans first.insts second.insts

/-- What is reached is reached step by step. -/
theorem malRegsBefore_earlier {insts : List MALInst} {start now : Nat → Option MALValue}
    {place later : Nat} (reached : malRegsBefore insts start later = some now)
    (inside : place < later) : ∃ after, malRegsBefore insts start (place + 1) = some after := by
  -- Induction on the places behind.
  induction later, inside using Nat.le_induction generalizing now with
  | base => exact ⟨now, reached⟩
  | succ later _ next =>
    obtain ⟨earlier, -, -, -, was, -⟩ := malRegsBefore_succ reached
    exact next was

section Refines

variable {insts insts' : List MALInst} (refines : List.Forall₂ ValueRefines insts insts')
  {start : Nat → Option MALValue}

include refines

/-- Instructions at one place of both lists. -/
theorem valueRefines_at {place : Nat} {inst : MALInst} (found : insts[place]? = some inst) :
    ∃ inst', insts'[place]? = some inst' ∧ ValueRefines inst inst' := by
  -- The place is behind both lists or inside both.
  rcases Search.forall₂_getElem? refines place with
    ⟨absent, -⟩ | ⟨here, there, found', placed, related⟩
  · rw [absent] at found
    cases found
  · rw [found'] at found
    cases found
    exact ⟨there, placed, related⟩

/-- Where the function computes registers, the refined one computes the same. -/
theorem malRegsBefore_refines {place : Nat} {now : Nat → Option MALValue}
    (before : malRegsBefore insts start place = some now) :
    malRegsBefore insts' start place = some now := by
  -- Induction on the instructions in front.
  induction place generalizing now with
  | zero => exact before
  | succ place next =>
    obtain ⟨earlier, inst, inputs, value, was, found, other, read, denoted, rfl⟩ :=
      malRegsBefore_succ before
    obtain ⟨inst', found', related⟩ := valueRefines_at refines found
    obtain ⟨inputs', read', denoted', -⟩ := related.value earlier inputs value read denoted
    rw [malRegsBefore, next was]
    simp [found', related.inner other, read', denoted', related.dst]

/-- The refined function returns the same value. -/
theorem ReturnsValue.rewritten {result : MALValue} (returns : ReturnsValue insts start result) :
    ReturnsValue insts' start result := by
  obtain ⟨supports, stop, last, ret, reached, found, isRet, read⟩ := returns
  obtain ⟨ret', found', related⟩ := valueRefines_at refines found
  obtain rfl := related.same isRet
  have reached' := malRegsBefore_refines refines reached
  refine ⟨?_, stop, last, ret', reached', found', isRet, read⟩
  intro place now inst' inputs' value' before' placed' other' read' denoted'
  rcases Nat.lt_trichotomy place stop with inside | rfl | behind
  · -- In front of the return the function computes, and so do both alike.
    obtain ⟨after, later⟩ : ∃ after, malRegsBefore insts start (place + 1) = some after :=
      malRegsBefore_earlier reached inside
    obtain ⟨earlier, inst, inputs, value, was, placed, other, read, denoted, -⟩ :=
      malRegsBefore_succ later
    obtain ⟨inst'', found'', related⟩ := valueRefines_at refines placed
    -- Both functions have computed the same, so the related instruction is supported as well.
    cases placed'.symm.trans found''
    cases before'.symm.trans (malRegsBefore_refines refines was)
    obtain ⟨inputs'', read'', -, supported⟩ := related.value now inputs value read denoted
    cases read'.symm.trans read''
    exact supported (supports place now inst inputs value was placed other read denoted)
  · rw [found'] at placed'
    cases placed'
    exact absurd isRet other'
  · rw [malRegsBefore_ret found' isRet behind] at before'
    cases before'

end Refines

end Wirble
