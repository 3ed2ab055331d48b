import Wirble.Wrs.Calls
import Wirble.Wrs.Termination
import Wirble.Wrs.EquinoxTerms

/-! Normalization with lightening rules returns, and keeps the nodes that it starts with. -/

namespace Wirble

open WILContext

/-- A node weighs more than any of its inputs. -/
theorem WILContext.IsWeight.input_lt {ctx : WILContext} {weight : Option Nat → Nat}
    (weighs : ctx.IsWeight weight) {source sink : Option Nat}
    (edge : Dag.Edge ctx.succ source sink) : weight sink < weight source := by
  -- Its own cost is not zero.
  have cost := pointerCost_pos ctx source
  have inputs : weight sink ≤ ((ctx.succ source).map weight).sum :=
    List.single_le_sum (fun _ _ => Nat.zero_le _) _ (List.mem_map_of_mem edge)
  rw [weighs.eq source]
  omega

/-- A later graph has all nodes of an earlier one, and none of them has become heavier. -/
structure Shrinks (before after : WILContext) : Prop where
  longer : before.graph.length ≤ after.graph.length
  core : ∀ ref < before.graph.length,
    (after.graph[ref]?).map WILNode.core = (before.graph[ref]?).map WILNode.core
  lighter : ∀ weight weight', before.IsWeight weight → after.IsWeight weight' →
    ∀ ref < before.graph.length, weight' (some ref) ≤ weight (some ref)

/-- Every graph shrinks into itself. -/
theorem Shrinks.refl {ctx : WILContext} (grounded : Dag.Grounded ctx.succ) : Shrinks ctx ctx where
  longer := Nat.le_refl _
  core _ _ := rfl
  lighter weight weight' weighs weighs' ref _ := by
    rw [grounded.valuation_unique weighs' weighs]

/-- Shrinking is transitive. -/
theorem Shrinks.trans {before middle after : WILContext} (grounded : Dag.Grounded middle.succ)
    (left : Shrinks before middle) (right : Shrinks middle after) : Shrinks before after where
  longer := Nat.le_trans left.longer right.longer
  core ref inside :=
    (right.core ref (Nat.lt_of_lt_of_le inside left.longer)).trans (left.core ref inside)
  lighter weight weight' weighs weighs' ref inside := by
    -- The weight in the middle graph is compared with both.
    obtain ⟨between, (weighsMiddle : middle.IsWeight between)⟩ := grounded.exists_valuation _
    have second := right.lighter between weight' weighsMiddle weighs' ref
      (Nat.lt_of_lt_of_le inside left.longer)
    exact Nat.le_trans second (left.lighter weight between weighs weighsMiddle ref inside)

section Passes

variable {equivalent : WILContext → Option Nat → Option Nat → Bool} {sys sys' : WILRewriteSystem}

/-- A graph without cycles, and operator rules whose replacements are lighter. -/
structure Lightening (sys : WILRewriteSystem) : Prop where
  consistent : DefUse sys.ctx
  grounded : Dag.Grounded sys.ctx.succ
  rules : ∀ rule ∈ sys.rules, SimpleRule rule ∧ Lightens rule

/-- The root of an operator pattern has no name. -/
theorem SimpleRule.rootFree {rule : WILRewriteRule} (simple : SimpleRule rule) : RootFree rule := by
  obtain ⟨kind, inputs, root⟩ := simple.root
  rw [RootFree, root]
  nofun

/-- Rules that only make terms lighter keep a graph safe. -/
theorem Lightening.safe (lightening : Lightening sys) : Safe sys where
  consistent := lightening.consistent
  grounded := lightening.grounded
  rules rule member :=
    let simple := (lightening.rules rule member).1
    ⟨simple.action, fun _ => simple.rootFree⟩

/-- One step of a pass keeps the nodes, and makes none of them heavier. -/
theorem Lightening.move (lightening : Lightening sys) {replaced : Bool}
    (moved : RewriteMove equivalent replaced sys sys') :
    sys'.rules = sys.rules ∧ sys'.strategy = sys.strategy ∧ Shrinks sys.ctx sys'.ctx := by
  have simple := fun rule member => (lightening.rules rule member).1
  cases moved with
  | failed inside applied =>
    rw [wilRewriteSystemApplyAt_none simple applied]
    exact ⟨rfl, rfl, .refl lightening.grounded⟩
  | @stored _ user index target found =>
    -- The slots stay the same, and with them the weights.
    have same := sameNodes_replaceInput sys.ctx user index (some target)
    have edges : (wilNodeReplaceInput sys.ctx user index (some target)).succ = sys.ctx.succ := by
      funext pointer
      cases pointer with
      | none => rfl
      | some node => exact congrFun (targets_stored found) node
    have costs : pointerCost (wilNodeReplaceInput sys.ctx user index (some target)) =
        pointerCost sys.ctx := by
      funext pointer
      cases pointer with
      | none => rfl
      | some ref => exact pointerCost_of_core (same.core ref)
    refine ⟨rfl, rfl, ⟨Nat.le_of_eq same.length.symm, fun ref _ => same.core ref, ?_⟩⟩
    intro weight weight' weighs weighs' ref _
    -- So the old weighing is the new one, and there is only one.
    have kept : sys.ctx.IsWeight weight' := by
      rw [WILContext.IsWeight, ← edges, ← costs]
      exact weighs'
    rw [lightening.grounded.valuation_unique kept weighs]
  | @replaced _ _ pointer replacement inside applied =>
    cases pointer with
    | none =>
      rw [wilRewriteSystemApplyAt, applyFirst_null] at applied
      cases applied
    | some node =>
      -- The rule that applied is lighter on its right-hand side.
      obtain ⟨rules, strategy, rule, member, -, subst, middle, step⟩ :=
        wilRewriteSystemApplyAt_some simple lightening.consistent applied
      obtain ⟨simpleRule, lightens⟩ := lightening.rules rule member
      have same := sameNodes_replaceAllUses middle (some node) (some replacement)
      rw [← step.after] at same
      refine ⟨rules, strategy, ?_, ?_, ?_⟩
      · rw [same.length]
        exact step.built.longer
      · intro ref old
        exact (same.core ref).trans (step.built.core ref old)
      · intro weight weight' weighs weighs' ref old
        exact step.weight_le simpleRule lightens lightening.consistent lightening.grounded weighs
          weighs' old

/-- So does any number of steps. -/
theorem Lightening.moves (lightening : Lightening sys) (moved : RewriteMoves equivalent sys sys') :
    Lightening sys' ∧ sys'.rules = sys.rules ∧ sys'.strategy = sys.strategy ∧
      Shrinks sys.ctx sys'.ctx := by
  induction moved with
  | refl => exact ⟨lightening, rfl, rfl, .refl lightening.grounded⟩
  -- One more move keeps the rules light, and the graph shrinks further.
  | tail _ last next =>
    obtain ⟨middle, rules, strategy, shrinks⟩ := next
    obtain ⟨replaced, move⟩ := last
    obtain ⟨rules', strategy', shrinks'⟩ := middle.move move
    have safe := middle.safe.move move
    exact ⟨⟨safe.consistent, safe.grounded, rules' ▸ middle.rules⟩, rules'.trans rules,
      strategy'.trans strategy, shrinks.trans middle.grounded shrinks'⟩

/-- An innermost pass with lightening rules returns. -/
theorem Lightening.passReturns (lightening : Lightening sys) (innermost : sys.strategy = .innermost)
    {pointer : Option Nat} (inside : Inside sys.ctx pointer) :
    PassReturns equivalent sys pointer := by
  obtain ⟨weight, (weighs : sys.ctx.IsWeight weight)⟩ := lightening.grounded.exists_valuation _
  -- Induction on the weight of the pointer in the graph that the pass finds.
  induction size : weight pointer using Nat.strongRecOn generalizing sys pointer weight with
  | ind total next =>
    cases pointer with
    | none => exact ⟨1, _, rfl⟩
    | some node =>
      have nodeInside := inside node rfl
      -- An input is lighter than the node, and rewriting has made nothing heavier.
      have below : ∀ middle, RewriteMoves equivalent sys middle →
          ∀ index < middle.ctx.inputCount node,
            PassReturns equivalent middle (middle.ctx.inputAt node index) := by
        intro middle moved index valid
        obtain ⟨after, -, strategy, shrinks⟩ := lightening.moves moved
        obtain ⟨between, (weighsMiddle : middle.ctx.IsWeight between)⟩ :=
          after.grounded.exists_valuation _
        have first := weighsMiddle.input_lt (edge_inputAt valid)
        have second := shrinks.lighter weight between weighs weighsMiddle node nodeInside
        exact next _ (by omega) after (strategy.trans innermost) (after.safe.inside_input valid)
          between weighsMiddle rfl
      obtain ⟨fuel, after, looped⟩ := rewriteInputs_returns below lightening.safe nodeInside 0
      refine ⟨fuel + 1, wilRewriteSystemApplyAt equivalent after (some node), ?_⟩
      rw [wrsApplyRecursive, if_pos innermost, looped, Option.map_some]

/-- What is left of a system after passes, with the node that they return if any. -/
structure Reduced (before after : WILRewriteSystem) (result : Option Nat) : Prop where
  lightening : Lightening after
  strategy : after.strategy = before.strategy
  shrinks : Shrinks before.ctx after.ctx
  inside : Inside after.ctx result

/-- A pass returns with enough fuel. -/
theorem Lightening.pass (lightening : Lightening sys) (innermost : sys.strategy = .innermost)
    {pointer : Option Nat} (inside : Inside sys.ctx pointer) :
    ∃ enough after result, Reduced sys after result ∧
      ∀ fuel, enough ≤ fuel →
        wrsApplyRecursive equivalent fuel sys pointer = some (after, result) := by
  -- The pass ends by the weights, and what it did is a run of moves.
  obtain ⟨enough, ⟨after, result⟩, passed⟩ := lightening.passReturns innermost inside
  obtain ⟨kept, -, strategy, shrinks⟩ :=
    lightening.moves (wrsApplyRecursive_steps enough lightening.safe inside passed)
  have rewired := wrsApplyRecursive_rewired enough lightening.safe inside passed
  exact ⟨enough, after, result, ⟨kept, strategy, shrinks, rewired.inside⟩,
    fun fuel more => wrsApplyRecursive_more more passed⟩

/-- The loop over passes returns. -/
theorem Lightening.loop (iterations : Nat) (lightening : Lightening sys)
    (innermost : sys.strategy = .innermost) {pointer : Option Nat}
    (inside : Inside sys.ctx pointer) :
    ∃ enough after result exit, Reduced sys after result ∧
      ∀ fuel, enough ≤ fuel →
        normalizeLoop equivalent fuel iterations sys pointer = some (after, result, exit) := by
  -- Induction on the passes still allowed.
  induction iterations generalizing sys pointer with
  | zero =>
    exact ⟨0, sys, pointer, .exhausted, ⟨lightening, rfl, .refl lightening.grounded, inside⟩,
      fun _ _ => rfl⟩
  | succ iterations next =>
    -- The first pass returns, with or without a replacement.
    obtain ⟨first, middle, replaced, reduced, passed⟩ :=
      (lightening.pass innermost inside : ∃ enough after result, Reduced sys after result ∧
        ∀ fuel, enough ≤ fuel →
          wrsApplyRecursive equivalent fuel sys pointer = some (after, result))
    cases replaced with
    | none =>
      have stays : Inside middle.ctx pointer := fun ref equal =>
        Nat.lt_of_lt_of_le (inside ref equal) reduced.shrinks.longer
      refine ⟨first, middle, pointer, .stopped,
        ⟨reduced.lightening, reduced.strategy, reduced.shrinks, stays⟩, fun fuel more => ?_⟩
      rw [normalizeLoop, passed fuel more]
    | some replacement =>
      obtain ⟨second, after, result, exit, done, looped⟩ :=
        next reduced.lightening (reduced.strategy.trans innermost) reduced.inside
      refine ⟨max first second, after, result, exit, ⟨done.lightening,
        done.strategy.trans reduced.strategy,
        reduced.shrinks.trans reduced.lightening.grounded done.shrinks, done.inside⟩,
        fun fuel more => ?_⟩
      rw [normalizeLoop, passed fuel (by omega)]
      exact looped fuel (by omega)

end Passes

/-! The e-graph. -/

section Extract

variable {ctx : WILContext}

/-- Adding the inputs of a node does not run out of fuel if adding each of them does not. -/
theorem wrsAddInputs_returns {add : WRSEGraphBuild → Option Nat → AddResult (Term Nat)}
    {inputs : List (Option Nat)}
    (each : ∀ input ∈ inputs, ∀ build, add build input ≠ .outOfFuel) (build : WRSEGraphBuild) :
    wrsAddInputs add build inputs ≠ .outOfFuel := by
  -- The induction is on the inputs, none of which runs out of fuel.
  induction inputs generalizing build with
  | nil => simp [wrsAddInputs]
  | cons input rest next =>
    have first := each input (.head _) build
    have others := next fun other member => each other (.tail _ member)
    rw [wrsAddInputs]
    -- Each outcome of the first input but a node ends the loop.
    cases added : add build input with
    | outOfFuel => exact absurd added first
    | failed => simp
    | added middle id =>
      have later := others middle
      cases rest : wrsAddInputs add middle rest with
      | outOfFuel => exact absurd rest later
      | failed => simp [rest]
      | added last ids => simp [rest]

/-- Adding a node of a graph without cycles does not run out of fuel. -/
theorem wrsAddNode_returns (grounded : Dag.Grounded ctx.succ) (pointer : Option Nat) :
    ∃ enough, ∀ fuel, enough ≤ fuel → ∀ build, wrsAddNode ctx fuel build pointer ≠ .outOfFuel := by
  -- Induction along the edges, with a common bound for all inputs of a node.
  induction pointer using grounded.induction with
  | _ pointer next =>
    cases pointer with
    | none =>
      refine ⟨1, fun fuel more build => ?_⟩
      obtain ⟨fuel, rfl⟩ := Nat.exists_eq_add_of_le' more
      simp [wrsAddNode]
    | some node =>
      -- The inputs have a bound together.
      obtain ⟨bound, inputs⟩ := Dag.exists_common_bound
        (fun enough input => ∀ fuel, enough ≤ fuel → ∀ build,
          wrsAddNode ctx fuel build input ≠ .outOfFuel)
        (fun less holds fuel more => holds fuel (Nat.le_trans less more)) next
      refine ⟨bound + 1, fun fuel more build => ?_⟩
      obtain ⟨fuel, rfl⟩ := Nat.exists_eq_add_of_le' (Nat.le_trans (Nat.le_add_left 1 bound) more)
      have below : ∀ build, wrsAddInputs (wrsAddNode ctx fuel) build (ctx.targets node) ≠
          .outOfFuel :=
        wrsAddInputs_returns fun input member build => inputs input member fuel (by omega) build
      rw [wrsAddNode]
      cases build.lookup node with
      | some cached => simp
      | none =>
        dsimp only
        split
        · simp
        -- A node of at most four inputs is added after them.
        · have added := below build
          cases result : wrsAddInputs (wrsAddNode ctx fuel) build (ctx.targets node) with
          | outOfFuel => exact absurd result added
          | failed => simp
          | added middle ids => simp

/-- More fuel changes nothing about inputs that have been added. -/
theorem wrsAddInputs_more {add add' : WRSEGraphBuild → Option Nat → AddResult (Term Nat)}
    (same : ∀ build input, add build input ≠ .outOfFuel → add' build input = add build input)
    {inputs : List (Option Nat)} {build : WRSEGraphBuild}
    (returned : wrsAddInputs add build inputs ≠ .outOfFuel) :
    wrsAddInputs add' build inputs = wrsAddInputs add build inputs := by
  induction inputs generalizing build with
  | nil => rfl
  | cons input rest next =>
    rw [wrsAddInputs] at returned
    rw [wrsAddInputs, wrsAddInputs]
    -- The input is added the same way, so the others start from the same graph.
    cases added : add build input with
    | outOfFuel => simp [added] at returned
    | failed => rw [same build input (by simp [added]), added]
    | added middle id =>
      rw [same build input (by simp [added]), added]
      have later : wrsAddInputs add middle rest ≠ .outOfFuel := by
        intro out
        simp [added, out] at returned
      simp only [next later]

/-- More fuel changes nothing about a node that has been added. -/
theorem wrsAddNode_more {fuel more : Nat} (enough : fuel ≤ more) {build : WRSEGraphBuild}
    {pointer : Option Nat} (returned : wrsAddNode ctx fuel build pointer ≠ .outOfFuel) :
    wrsAddNode ctx more build pointer = wrsAddNode ctx fuel build pointer := by
  -- Induction on the smaller fuel.
  induction fuel generalizing more build pointer with
  | zero => simp [wrsAddNode] at returned
  | succ fuel next =>
    obtain ⟨more, rfl⟩ := Nat.exists_eq_add_of_le' (Nat.le_trans (Nat.le_add_left 1 fuel) enough)
    cases pointer with
    | none => rfl
    | some node =>
      rw [wrsAddNode] at returned
      rw [wrsAddNode, wrsAddNode]
      cases cached : build.lookup node with
      | some id => rfl
      | none =>
        simp only [cached] at returned ⊢
        split
        · rfl
        · rename_i narrow
          rw [if_neg narrow] at returned
          -- The inputs did not run out of fuel, since the node did not.
          have inputs : wrsAddInputs (wrsAddNode ctx fuel) build (ctx.targets node) ≠
              .outOfFuel := by
            intro out
            simp [out] at returned
          rw [wrsAddInputs_more (fun build input holds => next (by omega) holds) inputs]

/-- Extraction returns a node below the given one or nothing, whatever the e-graph merges. -/
theorem wrsNormalizeWithEgraph_returns (grounded : Dag.Grounded ctx.succ) (lib : Equinox)
    (root maxIterations : Nat) :
    ∃ enough best, (∀ fuel, enough ≤ fuel →
        wrsNormalizeWithEgraph ctx lib fuel (some root) maxIterations = some best) ∧
      ∀ ref, best = some ref → Dag.Reach ctx.succ (some root) (some ref) := by
  -- Adding the node below the root is the only part that needs fuel.
  obtain ⟨enough, adds⟩ := wrsAddNode_returns grounded (some root)
  have returned := adds enough (Nat.le_refl _) []
  obtain ⟨best, extracted⟩ : ∃ best,
      wrsNormalizeWithEgraph ctx lib enough (some root) maxIterations = some best := by
    rw [wrsNormalizeWithEgraph]
    -- With enough fuel the root is added, or refused.
    cases result : wrsAddNode ctx enough [] (some root) with
    | outOfFuel => exact absurd result returned
    | failed => exact ⟨none, rfl⟩
    | added build id => exact ⟨_, rfl⟩
  refine ⟨enough, best, fun fuel more => ?_, fun ref equal => ?_⟩
  · rw [wrsNormalizeWithEgraph] at extracted ⊢
    rw [wrsAddNode_more more returned]
    exact extracted
  · rw [equal] at extracted
    exact (wrsNormalizeWithEgraph_picked extracted).1

end Extract

/-- Normalization of any node returns, for every e-graph and every test of repeated variables. -/
theorem Lightening.normalize {sys : WILRewriteSystem} (lightening : Lightening sys)
    (innermost : sys.strategy = .innermost)
    (equivalent : WILContext → Option Nat → Option Nat → Bool) (lib : Equinox) {node : Nat}
    (inside : node < sys.ctx.graph.length) (maxIterations : Nat) :
    ∃ enough after result exit, Reduced sys after result ∧ ∀ fuel, enough ≤ fuel →
      wilRewriteSystemNormalize equivalent (fun ctx => wrsNormalizeWithEgraph ctx lib fuel) fuel sys
        (some node) maxIterations = some (after, result, exit) := by
  -- Extraction returns first, and the loop starts at what it picked.
  obtain ⟨first, best, extracts, below⟩ :=
    wrsNormalizeWithEgraph_returns lightening.grounded lib node maxIterations
  -- The loop starts at a node of the graph.
  have placed : Inside sys.ctx (best.or (some node)) := by
    intro ref equal
    cases best with
    | none =>
      cases equal
      exact inside
    | some picked =>
      cases equal
      exact Bindable.inside lightening.consistent.closed inside (.inr (below _ rfl))
  obtain ⟨second, after, result, exit, reduced, looped⟩ :=
    (lightening.loop maxIterations innermost placed : ∃ enough after result exit,
      Reduced sys after result ∧ ∀ fuel, enough ≤ fuel → normalizeLoop equivalent fuel maxIterations
        sys (best.or (some node)) = some (after, result, exit))
  refine ⟨max first second, after, result, exit, reduced, fun fuel more => ?_⟩
  rw [wilRewriteSystemNormalize, extracts fuel (by omega), Option.bind_some]
  exact looped fuel (by omega)

end Wirble
