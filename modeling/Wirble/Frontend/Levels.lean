import Wirble.Frontend.Pipeline
import Wirble.Mal.PeepholeSound
import Wirble.Wrs.Returns
import Wirble.Wvm.Isolated

/-! All optimization levels lead to the same outcome. -/

namespace Wirble

open WILContext

/-! Rewriting the graph. -/

/-- The rules of named files are among those of the stock files. -/
structure StockRules (options : WirbleCompileOptions) : Prop where
  wrs : ∀ rules, options.wrsRulesPath = some rules → rules ⊆ builtinRules
  mrs : options.mrsRulesPath.getD malPeepholeRules = malPeepholeRules

section Rewrite

variable {options : WirbleCompileOptions} {ctx : WILContext}

/-- Loading a file changes the rules and the strategy only. -/
theorem wrsFileApplyToSystem_frame (rules : List WILRewriteRule) (strategy : WILRewriteStrategy)
    (sys : WILRewriteSystem) : (wrsFileApplyToSystem rules strategy sys).ctx = sys.ctx ∧
      (wrsFileApplyToSystem rules strategy sys).strategy = strategy := by
  rw [wrsFileApplyToSystem]
  generalize started : { sys with strategy } = current
  have same : current.ctx = sys.ctx ∧ current.strategy = strategy := by
    rw [← started]
    exact ⟨rfl, rfl⟩
  rw [← same.1, ← same.2]
  clear started same
  -- Each rule that is added changes the list of rules only.
  induction rules generalizing current with
  | nil => exact ⟨rfl, rfl⟩
  | cons rule rest next => exact next (wilRewriteSystemAddRule current rule)

/-- The rewriter starts with the graph, and with stock rules in innermost order. -/
theorem wirbleRewriteSystem_loaded (stock : StockRules options) (ctx : WILContext) :
    (wirbleRewriteSystem options ctx).ctx = ctx ∧
      (wirbleRewriteSystem options ctx).strategy = .innermost ∧
      ∀ rule ∈ (wirbleRewriteSystem options ctx).rules, IsBuiltin rule := by
  have none : ∀ rule, rule ∉ (wilRewriteSystemCreate ctx).rules := fun rule => List.not_mem_nil
  -- Rules come from a file that is named, or else from the compiler itself.
  cases named : options.wrsRulesPath with
  | some rules =>
    have loaded : wirbleRewriteSystem options ctx =
        wrsFileApplyToSystem rules .innermost (wilRewriteSystemCreate ctx) := by
      rw [wirbleRewriteSystem, named]
    rw [loaded]
    obtain ⟨same, strategy⟩ :=
      wrsFileApplyToSystem_frame rules .innermost (wilRewriteSystemCreate ctx)
    refine ⟨same, strategy, fun rule member => ?_⟩
    obtain ⟨original, inside, statsIndex, equal⟩ :=
      (mem_wrsFileApplyToSystem member).resolve_left (none rule)
    exact ⟨original, stock.wrs rules named inside, statsIndex, original.enabled, equal⟩
  | none =>
    have loaded : wirbleRewriteSystem options ctx =
        wilRewriteSystemAddAllBuiltinRules (wilRewriteSystemCreate ctx) := by
      rw [wirbleRewriteSystem, named]
    rw [loaded]
    -- The built-in rules come from three files.
    refine ⟨?_, (wrsFileApplyToSystem_frame _ _ _).2, fun rule member => ?_⟩
    · rw [wilRewriteSystemAddAllBuiltinRules, (wrsFileApplyToSystem_frame _ _ _).1,
        (wrsFileApplyToSystem_frame _ _ _).1, (wrsFileApplyToSystem_frame _ _ _).1]
      rfl
    · exact (mem_wilRewriteSystemAddAllBuiltinRules member).resolve_left (none rule)

/-- The stock rules only make terms lighter on a graph in order. -/
theorem wirbleRewriteSystem_lightening (stock : StockRules options) (consistent : DefUse ctx)
    (ordered : ctx.Ordered) : Lightening (wirbleRewriteSystem options ctx) := by
  -- Loading rules leaves the graph alone.
  obtain ⟨same, -, builtin⟩ := wirbleRewriteSystem_loaded stock ctx
  refine ⟨?_, ?_, fun rule member => ⟨(builtin rule member).simple, (builtin rule member).lightens⟩⟩
  · rw [same]
    exact consistent
  · rw [same]
    exact ordered.acyclic.grounded

variable (equivalent : WILContext → Option Nat → Option Nat → Bool) (lib : Equinox)

/-- Normalization returns at every level, and every node is still there with its kind. -/
theorem wirbleNormalize_returns (stock : StockRules options) (consistent : DefUse ctx)
    (ordered : ctx.Ordered) {value : Nat} (inside : value < ctx.graph.length) :
    ∃ enough after result, (∀ fuel, enough ≤ fuel →
        wirbleNormalize equivalent lib fuel options ctx value = some (after, result)) ∧
      ∀ node ∈ ctx.graph, ∃ node' ∈ after.graph, node'.kind = node.kind := by
  by_cases level : 0 < options.optimizationLevel
  -- Above level zero the rules are loaded, and normalizing returns with the same nodes.
  · obtain ⟨same, strategy, -⟩ := wirbleRewriteSystem_loaded stock ctx
    have lightening := wirbleRewriteSystem_lightening stock consistent ordered
    rw [← same] at inside
    obtain ⟨enough, sys, result, exit, reduced, returns⟩ :=
      lightening.normalize strategy equivalent lib inside 16
    refine ⟨enough, sys.ctx, result.or (some value), fun fuel more => ?_, fun node member => ?_⟩
    · rw [wirbleNormalize, if_pos level, returns fuel more, Option.map_some]
    · rw [← same] at member
      obtain ⟨node', member', kind, -⟩ := mem_of_cores reduced.shrinks.core member
      exact ⟨node', member', kind⟩
  -- At level zero nothing is rewritten.
  · refine ⟨0, ctx, some value, fun fuel _ => ?_, fun node member => ⟨node, member, rfl⟩⟩
    rw [wirbleNormalize, if_neg level]

/-- No operator rule matches a constant, and extraction finds no other node. -/
theorem wirbleNormalize_constant (stock : StockRules options) (consistent : DefUse ctx)
    (ordered : ctx.Ordered) {value : Nat} {node : WILNode} (found : ctx.graph[value]? = some node)
    (constant : node.kind.arity = none) (leaf : ctx.targets value = []) :
    ∃ enough, ∀ fuel, enough ≤ fuel →
      wirbleNormalize equivalent lib fuel options ctx value = some (ctx, some value) := by
  by_cases level : 0 < options.optimizationLevel
  · obtain ⟨same, strategy, -⟩ := wirbleRewriteSystem_loaded stock ctx
    have lightening := wirbleRewriteSystem_lightening stock consistent ordered
    generalize system : wirbleRewriteSystem options ctx = sys at same strategy lightening
    subst same
    obtain ⟨enough, best, extracts, below⟩ :=
      wrsNormalizeWithEgraph_returns lightening.grounded lib value 16
    refine ⟨enough + 2, fun fuel more => ?_⟩
    have extracted := extracts fuel (by omega)
    -- Nothing lies below the constant but itself.
    have start : best.or (some value) = some value := by
      cases best with
      | none => rfl
      | some ref =>
        rcases Relation.ReflTransGen.cases_head (below ref rfl) with equal | ⟨target, edge, -⟩
        · exact equal.symm
        · have member : target ∈ sys.ctx.targets value := edge
          rw [leaf] at member
          cases member
    -- A rule that applied would have an operator at its root.
    have idle : wilRewriteSystemApplyAt equivalent sys (some value) = (sys, none) := by
      have simple := fun rule member => (lightening.rules rule member).1
      cases applied : wilRewriteSystemApplyAt equivalent sys (some value) with
      | mk after result =>
        cases result with
        | none => rw [wilRewriteSystemApplyAt_none simple applied]
        | some replacement =>
          obtain ⟨-, -, rule, member, -, subst, middle, step⟩ :=
            wilRewriteSystemApplyAt_some simple lightening.consistent applied
          have rootSimple := (simple rule member).lhs
          obtain ⟨kind, inputs, root⟩ := (simple rule member).root
          have covers := step.covers
          rw [root] at covers rootSimple
          obtain ⟨ref, record, pointer, stored, same, -⟩ := covers
          cases pointer
          rw [found] at stored
          obtain rfl := Option.some.inj stored
          -- The root of the rule would have inputs.
          simp only [WILPattern.simple, Bool.and_eq_true, decide_eq_true_eq] at rootSimple
          rw [same, rootSimple.1] at constant
          cases constant
    -- So the pass finds no input, and no rule.
    have passed : wrsApplyRecursive equivalent fuel sys (some value) = some (sys, none) := by
      obtain ⟨fuel, rfl⟩ := Nat.exists_eq_add_of_le' (Nat.le_trans (Nat.le_add_left 2 enough) more)
      have count : ¬ 0 < sys.ctx.inputCount value := by
        rw [inputCount_eq, leaf]
        exact Nat.lt_irrefl 0
      rw [wrsApplyRecursive, if_pos strategy, rewriteInputs_succ, if_neg count, Option.map_some,
        idle]
    rw [wirbleNormalize, if_pos level, system, wilRewriteSystemNormalize, extracted,
      Option.bind_some, start, normalizeLoop, passed]
    rfl
  · refine ⟨0, fun fuel _ => ?_⟩
    rw [wirbleNormalize, if_neg level]

end Rewrite

/-! A division in the graph. -/

section Division

/-- The opcodes that a division is lowered to. -/
def MALOpcode.isDivision : MALOpcode → Bool
  | .sdiv | .fdiv => true
  | _ => false

/-- Some instruction of the functions is a division. -/
def Divides (functions : List MALFunction) : Prop :=
  ∃ fn ∈ functions, ∃ inst ∈ fn.insts, inst.opcode.isDivision = true

/-- A division node becomes a division, whether anything uses it or not. -/
theorem malLowerFromWIL_divides {graph : WILGraph} (present : ∃ node ∈ graph, node.kind = .div)
    (dst : MALModule) : Divides (malLowerFromWIL graph dst).functions := by
  obtain ⟨node, member, kind⟩ := present
  have operator : node.kind.isSilent = false := by rw [kind]; rfl
  obtain ⟨inst, emitted, opcode⟩ := malLowerNodes_emits member operator (by rw [kind]; decide)
  -- The instruction stands in the only block of the last function.
  refine ⟨_, List.mem_append_right _ (List.mem_singleton.mpr rfl), inst, ?_, ?_⟩
  · exact List.mem_flatMap.mpr ⟨_, List.mem_singleton.mpr rfl, emitted⟩
  · rw [opcode, kind, malOpcodeFromWIL]
    split <;> rfl

/-- No rule of the peephole pass matches a division. -/
theorem malRewriteInst_division {inst : MALInst} (division : inst.opcode.isDivision = true) :
    malRewriteInst malPeepholeRules inst = none := by
  -- The opcodes of the rules are no divisions.
  have others : ∀ rule ∈ malPeepholeRules, rule.matchOpcode.isDivision = false := by decide
  refine List.findSome?_eq_none_iff.mpr fun rule member => ?_
  have other : ¬ (rule.matchOpcode = inst.opcode ∧
      rule.matchOperands.length = inst.operands.length) := by
    rintro ⟨same, -⟩
    have never := others rule member
    rw [same, division] at never
    cases never
  rw [malMrsMatchRule, if_neg other, Option.map_none]

/-- One rewrite of the pass leaves the divisions of a function alone. -/
theorem malApplyOnePeephole_division {fn fn' : MALFunction}
    (applied : malApplyOnePeephole malPeepholeRules fn = some fn') {inst : MALInst}
    (division : inst.opcode.isDivision = true) (member : inst ∈ fn.insts) : inst ∈ fn'.insts := by
  obtain ⟨blocks, replaced, rfl⟩ := Option.map_eq_some_iff.mp applied
  obtain ⟨before, block, block', after, old, rfl, inBlock⟩ := Search.replaceFirst_some replaced
  obtain ⟨insts, inner, rfl⟩ := Option.map_eq_some_iff.mp inBlock
  obtain ⟨front, first, second, back, code, rfl, rewritten⟩ := Search.replaceFirst_some inner
  -- The rewritten instruction is no division, and all the others stay.
  have other : inst ≠ first := by
    rintro rfl
    rw [malRewriteInst_division division] at rewritten
    cases rewritten
  simp only [MALFunction.insts, old, code, List.flatMap_append, List.flatMap_cons,
    List.mem_append, List.mem_cons] at member ⊢
  tauto

/-- The pass ends on every function, and its divisions are still there. -/
theorem malApplyPeepholeToFixpoint_division (fn : MALFunction) :
    ∃ changed final, (∀ rounds, fn.insts.length < rounds →
        malApplyPeepholeToFixpoint malPeepholeRules rounds fn = some (changed, final)) ∧
      (Divides [fn] → Divides [final]) := by
  -- Every replacement removes a copy, and none removes a division.
  obtain ⟨changed, final, -, kept, runs⟩ :=
    Search.whileSome_ends (fun fn => malUncopied fn.insts)
      (fun before after applied => by
        have step := (malApplyOnePeephole_refines malPeepholeRules_sound applied).2
        omega)
      (R := fun before after => ∀ inst : MALInst, inst.opcode.isDivision = true →
        inst ∈ before.insts → inst ∈ after.insts)
      (fun _ _ _ member => member)
      (fun _ _ _ left right inst division member =>
        right inst division (left inst division member))
      (fun before after applied inst division member =>
        malApplyOnePeephole_division applied division member) fn
  refine ⟨changed, final, fun rounds enough => ?_, ?_⟩
  -- The copies of the function bound the rounds.
  · exact runs rounds (Nat.lt_of_le_of_lt List.countP_le_length enough)
  · rintro ⟨only, single, inst, member, division⟩
    rw [List.mem_singleton.mp single] at member
    exact ⟨final, List.mem_singleton.mpr rfl, inst, kept inst division member, division⟩

/-- A list of functions divides if the first or some other one does. -/
theorem divides_cons {fn : MALFunction} {rest : List MALFunction} :
    Divides (fn :: rest) ↔ Divides [fn] ∨ Divides rest := by
  simp [Divides]

/-- The pass over the functions of a module ends, and divisions are still there if it succeeds. -/
theorem wirblePeephole_returns (options : WirbleCompileOptions) (functions : List MALFunction) :
    ∃ enough result, (∀ fuel, enough ≤ fuel →
        wirblePeephole fuel options malPeepholeRules functions = some result) ∧
      ∀ functions', result = .ok functions' → Divides functions → Divides functions' := by
  -- Induction on the functions, with a bound that serves all of them.
  induction functions with
  | nil =>
    refine ⟨0, .ok [], fun _ _ => rfl, fun functions' same divides => ?_⟩
    cases same
    exact divides
  | cons fn rest next =>
    -- The first function's pass ends, and the verifier refuses it or the rest is done.
    obtain ⟨changed, final, ends, kept⟩ := malApplyPeepholeToFixpoint_division fn
    obtain ⟨enough, result, passes, others⟩ := next
    by_cases refused : (options.verifyIR && !malVerifySSA final) = true
    · refine ⟨fn.insts.length + 1, .error "MAL verification failed after peephole",
        fun fuel more => ?_, nofun⟩
      rw [wirblePeephole, ends fuel (by omega)]
      simp only [refused, if_true]
    · refine ⟨max enough (fn.insts.length + 1), result.map (final :: ·), fun fuel more => ?_, ?_⟩
      · rw [wirblePeephole, ends fuel (by omega)]
        simp only [refused, Bool.false_eq_true, if_false]
        rw [passes fuel (by omega), Option.map_some]
      -- A division in the module is one of the first function or of the others.
      · intro functions' same divides
        cases result with
        | error text => cases same
        | ok rest' =>
          cases same
          rw [divides_cons] at divides ⊢
          exact divides.imp kept (others rest' rfl)

/-- Building the module of a graph that divides ends, and the module divides. -/
theorem wirbleBuildMAL_division {options : WirbleCompileOptions} (stock : StockRules options)
    {graph : WILGraph} (present : ∃ node ∈ graph, node.kind = .div) :
    ∃ enough result, (∀ fuel, enough ≤ fuel → wirbleBuildMAL fuel options graph = some result) ∧
      ∀ module, result = .ok module → Divides module.functions := by
  -- Lowering keeps the division, and the peephole pass keeps it from there on.
  have lowered := malLowerFromWIL_divides present
    (malModuleCreate (some (wirbleTargetOrDefault options)))
  unfold wirbleBuildMAL
  rw [stock.mrs]
  generalize malLowerFromWIL graph (malModuleCreate (some (wirbleTargetOrDefault options))) =
    module at lowered
  simp only
  split
  · exact ⟨0, .error "MAL verification failed", fun _ _ => rfl, nofun⟩
  · split
    -- The pass over the functions decides.
    · obtain ⟨enough, result, passes, kept⟩ := wirblePeephole_returns options module.functions
      refine ⟨enough, result.map fun functions => { module with functions }, fun fuel more => ?_,
        fun final same => ?_⟩
      · rw [passes fuel more, Option.map_some]
      · cases result with
        | error text => cases same
        | ok functions =>
          cases same
          exact kept functions rfl lowered
    · refine ⟨0, .ok module, fun _ _ => rfl, fun final same => ?_⟩
      cases same
      exact lowered

/-- No selection pattern is one for a division. -/
theorem mdsBuildSelectedInst_division {kind : MDSTargetKind} {inst : MALInst}
    (division : inst.opcode.isDivision = true) :
    mdsBuildSelectedInst (mdsCreateSelector (mdsLoadMachine kind)) inst = none := by
  cases built : mdsBuildSelectedInst (mdsCreateSelector (mdsLoadMachine kind)) inst with
  | none => rfl
  | some out =>
    obtain ⟨desc, -, -, -, selected⟩ := mdsBuildSelectedInst_selected built
    -- The opcodes that are selected are others.
    cases selected with
    | move opcode | moveImm opcode | ret opcode => rw [opcode] at division; cases division
    | unary opcode => rcases opcode with same | same <;> rw [same] at division <;> cases division
    | binary _ _ _ _ _ _ meant =>
      cases opcode : inst.opcode <;> rw [opcode] at division meant <;>
        first | (cases division; done) | cases meant

/-- A module that divides has no bytecode for any machine. -/
theorem wirbleEmit_division {module : MALModule} (divides : Divides module.functions)
    (options : WirbleCompileOptions) (kind : MDSTargetKind) (sourceName : CString) :
    ∃ text, wirbleEmit options kind module sourceName = .error text := by
  rw [wirbleEmit]
  split
  · exact ⟨_, rfl⟩
  · -- No target describes a division, so that selection fails at that instruction.
    have unselected : mdsLowerFromMAL module (some (mdsCreateSelector (mdsLoadMachine kind)))
        (mdsLoadMachine kind) = none := by
      cases lowered : mdsLowerFromMAL module (some (mdsCreateSelector (mdsLoadMachine kind)))
        (mdsLoadMachine kind) with
      | none => rfl
      | some program =>
        -- The instruction that divides would have been selected.
        obtain ⟨fn, member, inst, inside, division⟩ := divides
        have selected := mdsLowerFromMAL_selected lowered
        have place : inst ∈ module.functions.flatMap (·.insts) :=
          List.mem_flatMap.mpr ⟨fn, member, inside⟩
        obtain ⟨out, -, built⟩ := Search.forall₂_mem_left selected place
        rw [Option.getD_some, mdsBuildSelectedInst_division division] at built
        cases built
    rw [unselected]
    exact ⟨_, rfl⟩

end Division

/-! The graph of a folded expression. -/

section Front

variable (equivalent : WILContext → Option Nat → Option Nat → Bool) (lib : Equinox)
  {options : WirbleCompileOptions}

/-- The graph in which expressions are lowered, which has the start node only. -/
def wirbleStarted : WILContext := (wilMakeStart (WILContext.empty 0)).1

/-- The context of a compilation starts well formed. -/
theorem wirbleStarted_consistent : DefUse wirbleStarted := (defUse_empty 0).create ..

/-- It starts in order of creation. -/
theorem wirbleStarted_ordered : wirbleStarted.Ordered := by decide

/-- A return node is made in the given graph, where verifying leaves at most a text behind. -/
theorem wirbleReturn_ok {ctx ctx' : WILContext} {start : Nat} {normalized : Option Nat}
    (returned : wirbleReturn options ctx start normalized = .ok ctx') :
    ∃ text, ctx' = (wilMakeReturn { ctx with verifyError := text } (some start) normalized).1 := by
  -- Either context differs from the given one in its text only.
  have text : ∃ text, (if options.verifyIR then wilVerifyGraph ctx else (ctx, true)).1 =
      { ctx with verifyError := text } := by
    split
    · exact ⟨_, rfl⟩
    · exact ⟨ctx.verifyError, rfl⟩
  rw [wirbleReturn] at returned
  generalize (if options.verifyIR then wilVerifyGraph ctx else (ctx, true)) = verified
    at returned text
  obtain ⟨text, same⟩ := text
  split at returned
  · cases returned
    exact ⟨text, by rw [same]⟩
  · cases returned

/-- Making the return node keeps the nodes of the graph. -/
theorem wirbleReturn_mem {ctx ctx' : WILContext} {start : Nat} {normalized : Option Nat}
    (returned : wirbleReturn options ctx start normalized = .ok ctx') {kind : WILNodeKind}
    (present : ∃ node ∈ ctx.graph, node.kind = kind) : ∃ node ∈ ctx'.graph, node.kind = kind := by
  obtain ⟨text, rfl⟩ := wirbleReturn_ok returned
  refine kind_mem_of_cores (fun ref inside => ?_) present
  exact (core_build ..).trans (if_neg (Nat.ne_of_lt inside))

/-- The graph of an expression that divides has a division, whatever has been rewritten. -/
theorem wirbleBuildWIL_division (stock : StockRules options) {expr : WirbleExpr}
    (divides : expr.divides = true) :
    ∃ enough result, (∀ fuel, enough ≤ fuel →
        wirbleBuildWIL equivalent lib fuel options expr = some result) ∧
      ∀ ctx, result = .ok ctx → ∃ node ∈ ctx.graph, node.kind = .div := by
  obtain ⟨grows, inside, divisions⟩ := wirbleLowerExpr_lowered wirbleStarted_consistent expr
  obtain ⟨enough, after, normalized, returns, kept⟩ := wirbleNormalize_returns equivalent lib stock
    grows.consistent (grows.ordered wirbleStarted_ordered) inside
  refine ⟨enough, wirbleReturn options after 0 normalized, fun fuel more => ?_, fun ctx made => ?_⟩
  -- Fuel that is enough for normalizing is enough for the graph.
  · show (wirbleNormalize equivalent lib fuel options (wirbleLowerExpr wirbleStarted expr).1
      (wirbleLowerExpr wirbleStarted expr).2).map _ = _
    rw [returns fuel more]
    rfl
  -- The division that was lowered is still there afterwards, and the return adds nodes only.
  · obtain ⟨node, member, kind⟩ := divisions divides
    obtain ⟨node', member', same⟩ := kept node member
    exact wirbleReturn_mem made ⟨node', member', same.trans kind⟩

/-- The graph of a literal is the same at every level. -/
theorem wirbleBuildWIL_literal (stock : StockRules options) (value : BitVec 64) :
    ∃ enough, ∀ fuel, enough ≤ fuel →
      wirbleBuildWIL equivalent lib fuel options (.int value) =
        some (wirbleReturn options (wirbleLowerExpr wirbleStarted (.int value)).1 0 (some 1)) := by
  obtain ⟨grows, -, -⟩ := wirbleLowerExpr_lowered wirbleStarted_consistent (.int value)
  -- A constant is in normal form, so normalizing leaves it alone.
  obtain ⟨enough, returns⟩ := wirbleNormalize_constant equivalent lib stock grows.consistent
    (grows.ordered wirbleStarted_ordered)
    (show (wirbleLowerExpr wirbleStarted (.int value)).1.graph[1]? = some _ from rfl) rfl rfl
  refine ⟨enough, fun fuel more => ?_⟩
  show (wirbleNormalize equivalent lib fuel options (wirbleLowerExpr wirbleStarted (.int value)).1
    1).map _ = _
  rw [returns fuel more]
  rfl

end Front

/-! The bytecode of a literal. -/

section Literal

variable {options : WirbleCompileOptions}

/-- The function that returns a literal. -/
def malLiteral (value : BitVec 64) : MALFunction where
  name := "wil_main"
  retType := .i32
  paramTypes := []
  paramCount := 0
  blocks := [⟨0, [⟨0, .copy, .i32, 0, [malOperandImmInt value.toInt .i32]⟩,
    ⟨1, .ret, .void, malInvalidReg, [malOperandReg 0 .i32]⟩], [], []⟩]
  nextSSAReg := 1

/-- A literal is in single-assignment form. -/
theorem malLiteral_verified (value : BitVec 64) : malVerifySSA (malLiteral value) = true := rfl

/-- No rule of the peephole pass matches a copy or a return. -/
theorem malLiteral_idle (value : BitVec 64) :
    malApplyOnePeephole malPeepholeRules (malLiteral value) = none := rfl

/-- The module of a literal is the same at every level. -/
theorem wirbleBuildMAL_literal (stock : StockRules options) {value : BitVec 64} {ctx : WILContext}
    (returned : wirbleReturn options (wirbleLowerExpr wirbleStarted (.int value)).1 0 (some 1) =
      .ok ctx) (fuel : Nat) :
    wirbleBuildMAL (fuel + 1) options ctx.graph =
      some (.ok ⟨[malLiteral value], some (wirbleTargetOrDefault options)⟩) := by
  -- The name of the return node is the only part of the graph that is not known here.
  have lowered : malLowerFromWIL ctx.graph
      (malModuleCreate (some (wirbleTargetOrDefault options))) =
        ⟨[malLiteral value], some (wirbleTargetOrDefault options)⟩ := by
    obtain ⟨text, rfl⟩ := wirbleReturn_ok returned
    rfl
  have accepted : (options.verifyIR && !([malLiteral value].all malVerifySSA)) = false := by
    rw [List.all_cons, malLiteral_verified]
    exact Bool.and_false _
  unfold wirbleBuildMAL
  rw [lowered, stock.mrs]
  simp only [accepted, Bool.false_eq_true, if_false]
  split
  · -- A literal is one load and one return, in which no rule finds anything.
    have idle : malApplyPeepholeToFixpoint malPeepholeRules (fuel + 1) (malLiteral value) =
        some (false, malLiteral value) := by
      rw [malApplyPeepholeToFixpoint, Search.whileSome, malLiteral_idle]
    have passed : wirblePeephole (fuel + 1) options malPeepholeRules [malLiteral value] =
        some (.ok [malLiteral value]) := by
      rw [wirblePeephole, idle]
      simp only [malLiteral_verified, Bool.not_true, Bool.and_false, Bool.false_eq_true, if_false]
      rfl
    rw [passed]
    rfl
  · rfl

/-- A lowered instruction has its descriptor. -/
theorem mdsLowerFromMAL_described {kind : MDSTargetKind} {module : MALModule} {program : MDSProgram}
    (lowered : mdsLowerFromMAL module (some (mdsCreateSelector (mdsLoadMachine kind)))
      (mdsLoadMachine kind) = some program) : ∀ inst ∈ program.insts, inst.desc.isSome = true := by
  intro out member
  -- Each instruction was selected, with a descriptor.
  obtain ⟨inst, -, built⟩ := Search.forall₂_mem_right (mdsLowerFromMAL_selected lowered) member
  rw [Option.getD_some] at built
  obtain ⟨desc, described, -⟩ := mdsBuildSelectedInst_selected built
  rw [described]
  rfl

/-- Laying out succeeds at every level, and optimizing changes nothing more. -/
theorem wirbleFinalize_described (options : WirbleCompileOptions) {program : MDSProgram}
    (described : ∀ inst ∈ program.insts, inst.desc.isSome = true) :
    wirbleFinalize options (tosBuildFromMDS program) =
      .ok (tosBuildFromMDS program.laidOut).finalized := by
  obtain ⟨finalized, -, again⟩ := tosFinalizeProgram_succeeds described
  rw [wirbleFinalize]
  split
  · simp only [tosOptimizeProgram, finalized, if_true, tosApplySubinstr, again]
  · simp only [finalized, if_true]

/-- The bytecode of a module does not depend on the level. -/
theorem wirbleEmit_level (options : WirbleCompileOptions) (level : BitVec 32) (kind : MDSTargetKind)
    (module : MALModule) (sourceName : CString) :
    wirbleEmit { options with optimizationLevel := level } kind module sourceName =
      wirbleEmit options kind module sourceName := by
  rw [wirbleEmit, wirbleEmit]
  split
  · rfl
  -- What has been lowered has descriptors, so finalizing succeeds at either level.
  · cases lowered : mdsLowerFromMAL module (some (mdsCreateSelector (mdsLoadMachine kind)))
      (mdsLoadMachine kind) with
    | none => rfl
    | some program =>
      have described := mdsLowerFromMAL_described lowered
      simp only [wirbleFinalize_described _ described]
      rfl

variable (options) in
/-- What the pipeline makes of a literal. -/
def wirbleLiteral (value : BitVec 64) (sourceName : Option CString) : Except String WVMPrototype :=
  match wirbleMachine (wirbleTargetOrDefault options) with
  | none => .error "unsupported target"
  | some kind =>
    (wirbleReturn options (wirbleLowerExpr wirbleStarted (.int value)).1 0 (some 1)).bind fun _ =>
      wirbleEmit options kind ⟨[malLiteral value], some (wirbleTargetOrDefault options)⟩
        (sourceName.getD (cString ("<input>".toUTF8.data.toList.map (·.toBitVec))))

/-- The level of optimisation plays no part in compiling a literal. -/
theorem wirbleLiteral_level (level : BitVec 32) (value : BitVec 64)
    (sourceName : Option CString) :
    wirbleLiteral { options with optimizationLevel := level } value sourceName =
      wirbleLiteral options value sourceName := by
  unfold wirbleLiteral
  simp only [wirbleEmit_level]
  rfl

/-- An expression that folds to a literal is compiled as this literal, at every level. -/
theorem wirbleBuildPipelineArtifacts_literal
    (equivalent : WILContext → Option Nat → Option Nat → Bool) (lib : Equinox)
    (stock : StockRules options) {expr : WirbleExpr} {value : BitVec 64}
    (folded : wirbleExprFoldConstants expr = .int value) (sourceName : Option CString) :
    ∃ enough, ∀ fuel, enough ≤ fuel →
      wirbleBuildPipelineArtifacts equivalent lib fuel options expr sourceName =
        some (wirbleLiteral options value sourceName) := by
  obtain ⟨enough, built⟩ := wirbleBuildWIL_literal equivalent lib stock value
  refine ⟨enough + 1, fun fuel more => ?_⟩
  rw [wirbleBuildPipelineArtifacts, wirbleLiteral, folded]
  -- Each stage gives the same result or the same error.
  cases wirbleMachine (wirbleTargetOrDefault options) with
  | none => rfl
  | some kind =>
    simp only [built fuel (by omega)]
    cases returned : wirbleReturn options (wirbleLowerExpr wirbleStarted (.int value)).1 0
      (some 1) with
    | error text => rfl
    | ok ctx =>
      obtain ⟨fuel, rfl⟩ := Nat.exists_eq_add_of_le' (Nat.le_trans (Nat.le_add_left 1 enough) more)
      simp only [wirbleBuildMAL_literal stock returned]
      rfl

/-- The bytecode of a function of one block encodes a stream of its instructions. -/
theorem wirbleEmit_stream {kind : MDSTargetKind} {fn : MALFunction} {block : MALBlock}
    (single : fn.blocks = [block]) {triple : Option String} {sourceName : CString}
    {proto : WVMPrototype}
    (emitted : wirbleEmit options kind ⟨[fn], triple⟩ sourceName = .ok proto) :
    ∃ stream name source, TOSStreams kind fn.insts stream.instructions ∧
      wvmPrototypeFromTOS stream name source = some proto := by
  rw [wirbleEmit] at emitted
  split at emitted
  · cases emitted
  · -- Every earlier error ends the pipeline, which leaves the branch that encodes.
    have stock : StockSelector (mdsLoadMachine kind)
        (some (mdsCreateSelector (mdsLoadMachine kind))) := Option.getD_some
    cases lowered : mdsLowerFromMAL ⟨[fn], triple⟩ (some (mdsCreateSelector (mdsLoadMachine kind)))
      (mdsLoadMachine kind) with
    | none =>
      rw [lowered] at emitted
      cases emitted
    | some program =>
      -- The stream of one block is the stream of its instructions.
      have described := mdsLowerFromMAL_described lowered
      have stream := tosStreams_finalize single ((stock.lower _).symm.trans lowered)
      rw [(tosFinalizeProgram_succeeds described).1] at stream
      simp only [lowered, wirbleFinalize_described options described, Except.bind] at emitted
      rw [wirbleEncode] at emitted
      -- The encoder or the verifier may still refuse the stream.
      split at emitted
      · cases emitted
      · split at emitted
        · cases emitted
        · rename_i encoded
          split at emitted
          · cases emitted
          · cases emitted
            exact ⟨_, _, _, stream, encoded⟩

/-- The bytecode of a function of one block is that of its instructions. -/
theorem wirbleEmit_compiled {kind : MDSTargetKind} {fn : MALFunction} {block : MALBlock}
    (single : fn.blocks = [block]) {triple : Option String} {sourceName : CString}
    {proto : WVMPrototype}
    (emitted : wirbleEmit options kind ⟨[fn], triple⟩ sourceName = .ok proto) :
    ∃ scratch code, WVMCompiled fn.insts scratch code proto := by
  obtain ⟨stream, name, source, streams, encoded⟩ := wirbleEmit_stream single emitted
  obtain ⟨-, code, compiled⟩ := wvmPrototypeFromTOS_compiled streams encoded
  exact ⟨_, code, compiled⟩

/-- A literal's bytecode ends. -/
theorem wirbleLiteral_ends {value : BitVec 64} {sourceName : Option CString}
    {proto : WVMPrototype} (compiled : wirbleLiteral options value sourceName = .ok proto) :
    ∃ enough outcome, ∀ fuel, enough ≤ fuel → wirbleExecutePrototype fuel proto = some outcome := by
  -- The bytecode is that of the function that returns the literal.
  obtain ⟨scratch, code, whole⟩ : ∃ scratch code,
      WVMCompiled (malLiteral value).insts scratch code proto := by
    unfold wirbleLiteral at compiled
    split at compiled
    · cases compiled
    · cases returned : wirbleReturn options (wirbleLowerExpr wirbleStarted (.int value)).1 0
        (some 1) with
      | error text =>
        rw [returned] at compiled
        cases compiled
      | ok ctx =>
        have single : (malLiteral value).blocks = [_] := rfl
        simp only [returned, Except.bind] at compiled
        exact wirbleEmit_compiled single compiled
  -- By isolation it ends in the same way on every machine.
  obtain ⟨rounds, verdict, ended, -, -⟩ :=
    whole.sameOutcome rfl (malLiteral_verified value) rfl wvmCreate wvmCreate
  have known : (wvmExecute wvmCreate proto rounds).result.isSome = true := by
    rw [ended]
    rfl
  -- The outcome reads the register that the run has left.
  obtain ⟨outcome, first⟩ : ∃ outcome, wirbleExecutePrototype rounds proto = some outcome := by
    rw [wirbleExecutePrototype, ended]
    exact ⟨_, rfl⟩
  refine ⟨rounds, outcome, fun fuel more => ?_⟩
  rw [wirbleExecutePrototype, wvmExecute_more more known]
  exact first

end Literal

/-- Both results are errors, or the same value. -/
def SameVerdict : Except String (BitVec 64) → Except String (BitVec 64) → Prop
  | .error _, .error _ => True
  | .ok low, .ok high => low = high
  | _, _ => False

/-- An expression that divides after folding fails at every level. -/
theorem wirbleExecuteSource_division (equivalent : WILContext → Option Nat → Option Nat → Bool)
    (lib : Equinox) {options : WirbleCompileOptions} (stock : StockRules options)
    {expr : WirbleExpr} (divides : (wirbleExprFoldConstants expr).divides = true)
    (sourceName : Option CString) :
    ∃ enough text, ∀ fuel, enough ≤ fuel →
      wirbleExecuteSource equivalent lib fuel options expr sourceName = some (.error text) := by
  suffices built : ∃ enough text, ∀ fuel, enough ≤ fuel →
      wirbleBuildPipelineArtifacts equivalent lib fuel options expr sourceName =
        some (.error text) by
    obtain ⟨enough, text, fails⟩ := built
    refine ⟨enough, text, fun fuel more => ?_⟩
    rw [wirbleExecuteSource, fails fuel more]
  cases machine : wirbleMachine (wirbleTargetOrDefault options) with
  | none =>
    refine ⟨0, "unsupported target", fun fuel _ => ?_⟩
    rw [wirbleBuildPipelineArtifacts, machine]
  -- The graph that is built keeps the division, unless building it fails.
  | some kind =>
    obtain ⟨first, result, graphs, present⟩ :=
      wirbleBuildWIL_division equivalent lib stock divides
    cases result with
    | error text =>
      refine ⟨first, text, fun fuel more => ?_⟩
      rw [wirbleBuildPipelineArtifacts, machine]
      simp only [graphs fuel more]
    | ok ctx =>
      -- The module keeps it too, unless the module is refused.
      obtain ⟨second, module, modules, division⟩ := wirbleBuildMAL_division stock (present ctx rfl)
      cases module with
      | error text =>
        refine ⟨max first second, text, fun fuel more => ?_⟩
        rw [wirbleBuildPipelineArtifacts, machine]
        simp only [graphs fuel (by omega), modules fuel (by omega)]
        rfl
      | ok module =>
        -- Selection has no pattern for the division.
        obtain ⟨text, fails⟩ := wirbleEmit_division (division module rfl) options kind
          (sourceName.getD (cString ("<input>".toUTF8.data.toList.map (·.toBitVec))))
        refine ⟨max first second, text, fun fuel more => ?_⟩
        rw [wirbleBuildPipelineArtifacts, machine]
        simp only [graphs fuel (by omega), modules fuel (by omega), Option.map_some, Except.bind,
          fails]

/-- Rules among the stock ones stay so at another level. -/
theorem StockRules.level {options : WirbleCompileOptions} (stock : StockRules options)
    (level : BitVec 32) : StockRules { options with optimizationLevel := level } :=
  ⟨stock.wrs, stock.mrs⟩

/-- With stock rules every level leads to the same outcome as level zero, for every expression and
whatever the e-graph merges. -/
theorem wirbleExecuteSource_levels_agree
    (equivalent : WILContext → Option Nat → Option Nat → Bool) (lib : Equinox)
    {options : WirbleCompileOptions} (stock : StockRules options) (level : BitVec 32)
    (expr : WirbleExpr) (sourceName : Option CString) :
    ∃ enough low high, SameVerdict low high ∧ ∀ fuel, enough ≤ fuel →
      wirbleExecuteSource equivalent lib fuel { options with optimizationLevel := 0 } expr
        sourceName = some low ∧
      wirbleExecuteSource equivalent lib fuel { options with optimizationLevel := level } expr
        sourceName = some high := by
  -- An expression folds to a literal, or it keeps a division, which no target has.
  rcases wirbleExprFoldConstants_cases expr with ⟨value, folded⟩ | divides
  · obtain ⟨first, builtLow⟩ := wirbleBuildPipelineArtifacts_literal equivalent lib (stock.level 0)
      folded sourceName
    obtain ⟨second, builtHigh⟩ := wirbleBuildPipelineArtifacts_literal equivalent lib
      (stock.level level) folded sourceName
    -- A literal compiles to the same bytecode at both levels.
    simp only [wirbleLiteral_level] at builtLow builtHigh
    cases compiled : wirbleLiteral options value sourceName with
    | error text =>
      refine ⟨max first second, .error text, .error text, trivial, fun fuel more => ⟨?_, ?_⟩⟩
      · rw [wirbleExecuteSource, builtLow fuel (by omega), compiled]
      · rw [wirbleExecuteSource, builtHigh fuel (by omega), compiled]
    | ok proto =>
      obtain ⟨third, outcome, ends⟩ := wirbleLiteral_ends compiled
      have same : SameVerdict outcome outcome := by
        cases outcome <;> trivial
      refine ⟨max (max first second) third, outcome, outcome, same, fun fuel more => ⟨?_, ?_⟩⟩
      · rw [wirbleExecuteSource, builtLow fuel (by omega), compiled]
        exact ends fuel (by omega)
      · rw [wirbleExecuteSource, builtHigh fuel (by omega), compiled]
        exact ends fuel (by omega)
  -- A division fails at both levels.
  · obtain ⟨first, text, low⟩ := wirbleExecuteSource_division equivalent lib (stock.level 0) divides
      sourceName
    obtain ⟨second, text', high⟩ := wirbleExecuteSource_division equivalent lib (stock.level level)
      divides sourceName
    exact ⟨max first second, .error text, .error text', trivial, fun fuel more =>
      ⟨low fuel (by omega), high fuel (by omega)⟩⟩

/-- The default options name stock files. -/
theorem wirbleInitCompileOptions_stock : StockRules wirbleInitCompileOptions where
  wrs rules named := by
    obtain rfl := Option.some.inj named
    rw [builtinRules, List.append_assoc]
    exact List.subset_append_left _ _
  mrs := rfl

/-- The expression `(1 + 2) * 3`. -/
def wirbleNine : WirbleExpr :=
  .binary .mul (.binary .add (.int 1) (.int 2)) (.int 3)

/-- An e-graph that merges nothing. -/
def bareEquinox : Equinox := ⟨fun _ _ _ left right => decide (left = right)⟩

/-- At the levels zero and two the outcomes agree, and the latter is nine. -/
theorem wirbleExecuteSource_levels_agree_nine :
    wirbleExecuteSource (fun _ left right => left == right) bareEquinox 20 wirbleInitCompileOptions
        wirbleNine none = some (.ok (wvmValueFromInt 9)) ∧
      ∃ enough low high, SameVerdict low high ∧ ∀ fuel, enough ≤ fuel →
        wirbleExecuteSource (fun _ left right => left == right) bareEquinox fuel
          { wirbleInitCompileOptions with optimizationLevel := 0 } wirbleNine none = some low ∧
        wirbleExecuteSource (fun _ left right => left == right) bareEquinox fuel
          { wirbleInitCompileOptions with optimizationLevel := 2 } wirbleNine none = some high :=
  -- The outcome at level zero is evaluated.
  ⟨by decide +kernel, wirbleExecuteSource_levels_agree _ bareEquinox
    wirbleInitCompileOptions_stock 2 wirbleNine none⟩

end Wirble
