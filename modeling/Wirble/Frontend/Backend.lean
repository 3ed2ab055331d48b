import Wirble.Frontend.Levels
import Wirble.Mal.LoweredSsa
import Wirble.Wvm.Rewritten

/-! The back end of the front end's pipeline, from a graph of integers to what the machine returns. -/

namespace Wirble

open WILContext

/-- What is left of a result without its error is the result. -/
theorem toOption_eq_some {α : Type} {result : Except String α} {value : α}
    (present : result.toOption = some value) : result = .ok value := by
  cases result with
  | error text => cases present
  | ok other => exact congrArg Except.ok (Option.some.inj present)

section Build

variable {options : WirbleCompileOptions} {fuel : Nat} {graph : WILGraph} {module : MALModule}

/-- At every level the module has one function, which may stand for the lowered one. -/
theorem wirbleBuildMAL_refines
    (stock : options.mrsRulesPath.getD malPeepholeRules = malPeepholeRules)
    (built : wirbleBuildMAL fuel options graph = some (.ok module)) :
    ∃ final triple, module = ⟨[final], triple⟩ ∧ FunctionValueRefines (malMain graph) final := by
  unfold wirbleBuildMAL at built
  rw [stock, malLowerFromWIL_main] at built
  dsimp only at built
  split at built
  · cases built
  · split at built
    · -- The pass runs over the only function.
      obtain ⟨passed, ran, same⟩ := Option.map_eq_some_iff.mp built
      rw [wirblePeephole] at ran
      split at ran
      · cases ran
      · rename_i changed final ended
        -- The pass has ended, and the verifier has let the function through.
        split at ran
        · cases ran
          cases same
        · rw [wirblePeephole] at ran
          cases ran
          cases same
          exact ⟨final, _, rfl, malApplyPeepholeToFixpoint_values ended⟩
    · cases built
      exact ⟨_, _, rfl, rfl, List.forall₂_same.mpr fun inst _ => ValueRefines.refl inst⟩

/-- What is returned on the target is returned by the bytecode of every level. -/
theorem wirbleEmit_returns
    (stock : options.mrsRulesPath.getD malPeepholeRules = malPeepholeRules)
    (built : wirbleBuildMAL fuel options graph = some (.ok module))
    {kind : MDSTargetKind} {sourceName : CString} {proto : WVMPrototype}
    (emitted : wirbleEmit options kind module sourceName = .ok proto)
    (small : ∀ inst ∈ (malLowerNodes graph).insts, inst.Small)
    {regs : Nat → Option MALValue} {result : MALValue}
    (returns : ReturnsValue (malLowerNodes graph).insts regs result) {vm : WVMState}
    (initial : WVMInitial vm regs) :
    ∃ rounds, (wvmExecute vm proto rounds).result = some true ∧
      (wvmExecute vm proto rounds).vm.stack 0 = wvmValueOf result := by
  -- The pass refines the lowered function, so the registers of both are small.
  obtain ⟨final, triple, rfl, refines⟩ := wirbleBuildMAL_refines stock built
  have insts := refines.insts
  rw [malMain_insts] at insts
  obtain ⟨block, single⟩ := List.length_eq_one_iff.mp refines.blocks
  obtain ⟨stream, name, source, streams, encoded⟩ := wirbleEmit_stream single emitted
  have small' : ∀ inst ∈ final.insts, inst.Small := by
    intro inst' member
    obtain ⟨inst, source, related⟩ := Search.forall₂_mem_right insts member
    exact related.small (small inst source)
  obtain ⟨scratch, code, compiled, fits, last, start⟩ :=
    tosStreams_starts streams small' encoded initial
  -- What the lowered function returns, the rewritten one returns.
  obtain ⟨supports, place, now, ret, reached, found, isRet, read⟩ := returns.rewritten insts
  have computes := supports.computes compiled fits last start
  exact ⟨_, computes.returned place now ret result reached found isRet read⟩

end Build

section Graph

variable {self : Nat} {calls : List WILCall} {options : WirbleCompileOptions} {fuel : Nat}
  {module : MALModule} {kind : MDSTargetKind} {sourceName : CString} {proto : WVMPrototype}

/-- At every optimization level and for every target, the bytecode of a graph of integers returns
the value that the graph denotes for the words in the first slots of the stack. -/
theorem wirbleBackend_computes (inside : CallsOnNodes (empty self) calls)
    (graph : WVMGraph (runCalls (empty self) calls))
    {reader : Nat} {node : WILNode} {slot : WILInputSlot}
    (found : (runCalls (empty self) calls).graph[reader]? = some node)
    (ret : node.kind = .returnNode) (input : node.inputs[1]? = some slot)
    {params : Nat → BitVec 32} {result : MALValue}
    (computes : ∀ ref < reader, ∀ node, (runCalls (empty self) calls).graph[ref]? = some node →
      node.kind.isLowered = true → WVMComputes (runCalls (empty self) calls) params ref node)
    (denotes : (runCalls (empty self) calls).Denotes (wilWords params) slot.node
      (some result.integer))
    (stock : options.mrsRulesPath.getD malPeepholeRules = malPeepholeRules)
    (built : wirbleBuildMAL fuel options (runCalls (empty self) calls).graph = some (.ok module))
    (emitted : wirbleEmit options kind module sourceName = .ok proto) {vm : WVMState}
    (arguments : ∀ index < (malFindParams (runCalls (empty self) calls).graph).length,
      index < vm.stackSize.toNat ∧ vm.stack index = wvmValueFromInt (params index)) :
    ∃ rounds, (wvmExecute vm proto rounds).result = some true ∧
      (wvmExecute vm proto rounds).vm.stack 0 = wvmValueOf result := by
  have consistent := (defUse_empty self).calls calls inside
  have identified : (runCalls (empty self) calls).graph.Identified := fun ref node found =>
    (consistent.identified ref node found).1
  have categories := (categories_empty self).calls calls
  have count : (malMain (runCalls (empty self) calls).graph).paramCount =
      (malFindParamCount (runCalls (empty self) calls).graph).1 := rfl
  have returns := graph.returns identified categories count found ret input computes denotes
  refine wirbleEmit_returns stock built emitted (graph.small categories) returns ?_
  -- Only the parameters have values at the start.
  intro reg value held
  rw [MALRegisters.target, MALFunction.arguments] at held
  split at held
  · rename_i param
    cases held
    exact arguments reg (Nat.lt_of_lt_of_le param (Nat.mod_le _ _))
  · cases held

end Graph

/-- The sum of a parameter and zero, times the parameter. -/
def squaredParam : List WILCall :=
  [.makeStart, .makeParam 0 .i32 none, .makeConstInt 0 .i32, .makeBinary .add (some 1) (some 2),
    .makeBinary .mul (some 3) (some 1), .makeReturn (some 0) (some 4)]

/-- The graph of the square is one for the virtual machine. -/
theorem squaredParam_graph : WVMGraph (runCalls (empty 7) squaredParam) where
  integers := integerGraph_of_checks 5 (by decide) (by decide) (by decide)
  ordered := by decide
  fewer := by decide
  -- The bounds are checked node by node.
  constants ref node found kind := by
    have small : ∀ node ∈ (runCalls (empty 7) squaredParam).graph, node.kind = .constInt →
        -2 ^ 31 ≤ node.constInt ∧ node.constInt ≤ 2 ^ 31 - 1 := by decide
    exact small node (List.mem_of_getElem? found) kind
  data ref node found other := by
    have plain : ∀ node ∈ (runCalls (empty 7) squaredParam).graph, node.kind ≠ .returnNode →
        ∀ slot ∈ node.inputs, slot.edgeKind ≠ .control := by decide
    exact plain node (List.mem_of_getElem? found) other

/-- The sum and the product have values for the argument six. -/
theorem squaredParam_computes (ref : Nat) (inside : ref < 5) (node : WILNode)
    (found : (runCalls (empty 7) squaredParam).graph[ref]? = some node)
    (lowered : node.kind.isLowered = true) :
    WVMComputes (runCalls (empty 7) squaredParam) (fun _ => 6) ref node := by
  -- Two of the nodes are operators, and both have integers for their operands.
  have operators : ∀ ref < 5, (((runCalls (empty 7) squaredParam).graph[ref]?).map
      (·.kind.isLowered)) = some true → ref = 3 ∨ ref = 4 := by decide
  rcases operators ref inside (by rw [found, Option.map_some, lowered]) with rfl | rfl
  · cases found
    -- The sum adds zero to the argument.
    refine ⟨[.int 6, .int 0], .int 6, .cons ⟨1, rfl⟩ (.cons ⟨1, rfl⟩ .nil), rfl, ?_⟩
    show ∀ input ∈ [MALValue.int 6, .int 0], input.isInt = true
    decide
  · cases found
    -- The product multiplies the sum with the argument.
    refine ⟨[.int 6, .int 6], .int 36, .cons ⟨2, rfl⟩ (.cons ⟨1, rfl⟩ .nil), rfl, ?_⟩
    show ∀ input ∈ [MALValue.int 6, .int 6], input.isInt = true
    decide

/-- The default options compile it, with the sum rewritten to a copy. -/
theorem squaredParam_compiles :
    ∃ module proto, wirbleBuildMAL 9 wirbleInitCompileOptions
        (runCalls (empty 7) squaredParam).graph = some (.ok module) ∧
      wirbleEmit wirbleInitCompileOptions .x86_64 module (cString []) = .ok proto := by
  have whole : ((wirbleBuildMAL 9 wirbleInitCompileOptions
      (runCalls (empty 7) squaredParam).graph).bind fun result => result.toOption.bind fun module =>
        (wirbleEmit wirbleInitCompileOptions .x86_64 module (cString [])).toOption).isSome = true := by
    decide +kernel
  -- The stages of the pipeline are read off the one that was evaluated.
  obtain ⟨proto, whole⟩ := Option.isSome_iff_exists.mp whole
  obtain ⟨result, built, rest⟩ := Option.bind_eq_some_iff.mp whole
  obtain ⟨module, isModule, emitted⟩ := Option.bind_eq_some_iff.mp rest
  exact ⟨module, proto, built.trans (congrArg some (toOption_eq_some isModule)),
    toOption_eq_some emitted⟩

/-- The bytecode squares six. -/
theorem wirbleBackend_computes_square :
    ∃ proto rounds, (wvmExecute (wvmPair 6 0) proto rounds).result = some true ∧
      (wvmExecute (wvmPair 6 0) proto rounds).vm.stack 0 = wvmValueOf (.int 36) := by
  obtain ⟨module, proto, built, emitted⟩ := squaredParam_compiles
  refine ⟨proto, @wirbleBackend_computes 7 squaredParam _ _ _ _ _ _ (by decide) squaredParam_graph
    5 _ _ rfl rfl rfl (fun _ => 6) (.int 36) squaredParam_computes ⟨3, rfl⟩ rfl built emitted _ ?_⟩
  intro index inside
  -- There is one parameter, and its register holds the argument.
  have one : (malFindParams (runCalls (empty 7) squaredParam).graph).length = 1 := by decide
  obtain rfl : index = 0 := by omega
  exact ⟨by decide, rfl⟩

end Wirble
