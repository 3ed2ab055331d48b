import Wirble.Wrs.Step
import Wirble.Wrs.StdRewrite
import Wirble.Library.Weight

/-! Termination of the built-in rules. -/

namespace Wirble

open WILContext

/-- What a node of the given kind adds to the weights of its inputs. -/
def kindWeight : WILNodeKind → Nat
  -- Rules turn sums into negations and products, which are lighter.
  | .add | .sub => 2
  | _ => 1

/-- Every kind weighs something. -/
theorem kindWeight_pos (kind : WILNodeKind) : 1 ≤ kindWeight kind := by
  cases kind <;> decide

/-- Weights as an interpretation of the graph. -/
def weightInterp : WILInterp Nat where
  null := 1
  constInt _ _ := 1
  constFloat _ _ := 1
  constBool _ := 1
  param _ := 1
  operator kind inputs := kindWeight kind + inputs.sum
  other node inputs := kindWeight node.kind + inputs.sum

/-- A node without inputs that it should not have means its weight. -/
theorem weightInterp_denote {record : WILNode} {inputs : List Nat}
    (leaf : record.kind.isLeaf = true → inputs = []) :
    weightInterp.denote record inputs = kindWeight record.kind + inputs.sum := by
  have core : record.core.kind = record.kind := rfl
  unfold WILInterp.denote
  -- Kinds that may have inputs add up their weights.
  cases kind : record.kind <;>
    simp_all [weightInterp, kindWeight, WILNodeKind.isLeaf, WILNodeKind.arity]

namespace WILPattern

mutual

/-- The weight of a pattern without that of its variables. -/
def weight : WILPattern → Nat
  | constInt _ | constFloat _ | constBool _ => 1
  | node kind inputs => kindWeight kind + weightList inputs
  | refinement base => base.weight
  | _ => 0

/-- The weight of a list of patterns without that of their variables. -/
def weightList : List WILPattern → Nat
  | [] => 0
  | pattern :: rest => pattern.weight + weightList rest

end

mutual

/-- The weight of a pattern is its own and that of its variables. -/
theorem eval_weightInterp (assign : String → Nat) : ∀ {pattern : WILPattern},
    pattern.simple = true →
    pattern.eval weightInterp assign = pattern.weight + (pattern.vars.map assign).sum
  | .var (some name), _ => by simp [eval, weight, vars]
  | .constInt _, _ | .constBool _, _ => rfl
  | .node kind inputs, simple => by
    simp only [WILPattern.simple, Bool.and_eq_true] at simple
    -- A node weighs one more than its inputs, whose weights add up.
    have inputs := evalList_weightInterp assign simple.2
    simp only [eval, weight, vars, weightInterp] at inputs ⊢
    omega
  | .var none, simple | .null, simple | .constFloat _, simple | .wildcard, simple
  | .predicate _, simple | .sequence _ _, simple | .refinement _, simple => by
    simp [WILPattern.simple] at simple

/-- Evaluating patterns under weights adds up what their nodes and names weigh. -/
theorem evalList_weightInterp (assign : String → Nat) : ∀ {patterns : List WILPattern},
    simpleList patterns = true →
    (evalList weightInterp assign patterns).sum =
      weightList patterns + ((varsList patterns).map assign).sum
  | [], _ => rfl
  | pattern :: rest, simple => by
    simp only [simpleList, Bool.and_eq_true] at simple
    -- The head and the tail each account for their own names.
    have first := eval_weightInterp assign simple.1
    have others := evalList_weightInterp assign simple.2
    simp only [evalList, weightList, varsList, List.sum_cons, List.map_append, List.sum_append]
    omega

end

end WILPattern

/-- The names bound after meeting more names, each kept once. -/
def bindNames (bound : List String) : List String → List String
  | [] => bound
  | name :: rest => bindNames (if name ∈ bound then bound else bound ++ [name]) rest

/-- Binding the names of two lists is binding one after the other. -/
theorem bindNames_append (bound first second : List String) :
    bindNames bound (first ++ second) = bindNames (bindNames bound first) second := by
  induction first generalizing bound with
  | nil => rfl
  | cons name rest next => exact next _

section Match

variable {equivalent : WILContext → Option Nat → Option Nat → Bool} {ctx : WILContext}
  {weight : Option Nat → Nat}

/-- The weight of all bindings together. -/
def bindingsWeight (weight : Option Nat → Nat) (subst : WILSubstitution) : Nat :=
  (subst.map (weight ·.2)).sum

/-- Accounts for a match: the names bound, and the weight of the matched nodes. The occurrences of
a variable after the first one weigh something, whatever node they stand for. -/
structure Accounts (weight : Option Nat → Nat) (subst extended : WILSubstitution)
    (names : List String) (base matched : Nat) : Prop where
  keys : extended.map (·.1) = bindNames (subst.map (·.1)) names
  weights : bindingsWeight weight extended + base + names.length + subst.length ≤
    bindingsWeight weight subst + matched + extended.length

/-- Binding a name accounts for its weight once. -/
theorem bind_accounts (positive : ∀ pointer, 1 ≤ weight pointer)
    {subst extended : WILSubstitution} {name : String} {node : Option Nat}
    (bound : wrsSubstitutionBind equivalent ctx subst (some name) node = some extended) :
    Accounts weight subst extended [name] 0 (weight node) := by
  simp only [wrsSubstitutionBind] at bound
  cases found : subst.lookup name with
  | some known =>
    -- Another occurrence of a bound name.
    simp only [found, Option.ite_none_right_eq_some, Option.some.injEq] at bound
    obtain ⟨-, rfl⟩ := bound
    -- The name is bound already, so it is counted already.
    have member : name ∈ subst.map (·.1) := by
      obtain ⟨front, back, rfl, -⟩ := List.lookup_eq_some_iff.mp found
      simp
    refine ⟨by simp [bindNames, member], ?_⟩
    have least := positive node
    simp only [List.length_singleton]
    omega
  | none =>
    simp only [found, Option.some.injEq] at bound
    subst bound
    -- A name that is not found is no key of the bindings.
    have absent : name ∉ subst.map (·.1) := by
      intro member
      obtain ⟨entry, inside, rfl⟩ := List.mem_map.mp member
      have all := List.lookup_eq_none_iff.mp found entry inside
      simp at all
    refine ⟨by simp [bindNames, absent], ?_⟩
    simp only [bindingsWeight, List.map_append, List.map_cons, List.map_nil, List.sum_append,
      List.sum_singleton, List.length_append, List.length_singleton]
    omega

mutual

/-- A match of a simple pattern accounts for the weight of the node. -/
theorem wrsMatchPattern_accounts (positive : ∀ pointer, 1 ≤ weight pointer)
    (weighs : ∀ ref record, ctx.graph[ref]? = some record →
      weight (some ref) = kindWeight record.kind + ((ctx.targets ref).map weight).sum)
    {subst extended : WILSubstitution} :
    ∀ {pattern : WILPattern} {node : Option Nat}, pattern.simple = true →
      wrsMatchPattern equivalent ctx subst pattern node = some extended →
      Accounts weight subst extended pattern.vars pattern.weight (weight node)
  | .var (some name), node, _, matched => by
    rw [wrsMatchPattern] at matched
    exact bind_accounts positive matched
  | .constInt value, node, _, matched => by
    -- A constant binds nothing and weighs no more than the node.
    have least := positive node
    simp only [wrsMatchPattern, wrsMatchPattern.matchConstantAt, Option.ite_none_right_eq_some,
      Option.some.injEq] at matched
    obtain ⟨-, rfl⟩ := matched
    exact ⟨rfl, by simp only [WILPattern.vars, WILPattern.weight, List.length_nil]; omega⟩
  | .constBool value, node, _, matched => by
    have least := positive node
    simp only [wrsMatchPattern, wrsMatchPattern.matchConstantAt, Option.ite_none_right_eq_some,
      Option.some.injEq] at matched
    obtain ⟨-, rfl⟩ := matched
    exact ⟨rfl, by simp only [WILPattern.vars, WILPattern.weight, List.length_nil]; omega⟩
  | .node kind inputs, node, simple, matched => by
    simp only [WILPattern.simple, Bool.and_eq_true] at simple
    cases node with
    | none => simp [wrsMatchPattern] at matched
    | some ref =>
      -- The node's kind is that of the pattern, and its inputs are accounted for in turn.
      cases stored : ctx.graph[ref]? with
      | none => simp [wrsMatchPattern, deref, stored] at matched
      | some record =>
        simp only [wrsMatchPattern, deref, Option.bind_some, stored,
          Option.ite_none_right_eq_some] at matched
        obtain ⟨⟨sameKind, -⟩, below⟩ := matched
        have inputs := matchInputs_accounts positive weighs simple.2 below
        refine ⟨inputs.keys, ?_⟩
        -- The node adds the weight of its kind on both sides.
        have balance := inputs.weights
        rw [weighs ref record stored, sameKind]
        simp only [WILPattern.vars, WILPattern.weight]
        omega
  | .var none, _, simple, _ | .null, _, simple, _ | .constFloat _, _, simple, _
  | .wildcard, _, simple, _ | .predicate _, _, simple, _ | .sequence _ _, _, simple, _
  | .refinement _, _, simple, _ => by simp [WILPattern.simple] at simple

/-- Matching inputs accounts for the weights of all their names and nodes. -/
theorem matchInputs_accounts (positive : ∀ pointer, 1 ≤ weight pointer)
    (weighs : ∀ ref record, ctx.graph[ref]? = some record →
      weight (some ref) = kindWeight record.kind + ((ctx.targets ref).map weight).sum)
    {subst extended : WILSubstitution} :
    ∀ {patterns : List WILPattern} {nodes : List (Option Nat)},
      WILPattern.simpleList patterns = true →
      matchInputs equivalent ctx subst patterns nodes = some extended →
      Accounts weight subst extended (WILPattern.varsList patterns) (WILPattern.weightList patterns)
        (nodes.map weight).sum
  | [], nodes, _, matched => by
    -- Nothing is bound and nothing is weighed.
    rw [matchInputs, Option.some.injEq] at matched
    subst matched
    exact ⟨rfl, by simp only [WILPattern.varsList, WILPattern.weightList, List.length_nil]; omega⟩
  | _ :: _, [], _, matched => by simp [matchInputs] at matched
  | pattern :: patterns, node :: nodes, simple, matched => by
    simp only [WILPattern.simpleList, Bool.and_eq_true] at simple
    rw [matchInputs, Option.bind_eq_some_iff] at matched
    -- The first input is matched, and the others with its bindings.
    obtain ⟨middle, first, rest⟩ := matched
    have head := wrsMatchPattern_accounts positive weighs simple.1 first
    have tail := matchInputs_accounts positive weighs simple.2 rest
    refine ⟨?_, ?_⟩
    · rw [WILPattern.varsList, bindNames_append, tail.keys, head.keys]
    · have early := head.weights
      have late := tail.weights
      simp only [WILPattern.varsList, WILPattern.weightList, List.length_append, List.map_cons,
        List.sum_cons]
      omega

end

end Match

/-- A rule whose right side is lighter than its left side, on whatever nodes they are read. -/
def Lightens (rule : WILRewriteRule) : Prop :=
  rule.rhs.vars.Nodup ∧
    rule.rhs.weight + (bindNames [] rule.lhs.vars).length <
      rule.lhs.weight + rule.lhs.vars.length

instance (rule : WILRewriteRule) : Decidable (Lightens rule) :=
  inferInstanceAs (Decidable (_ ∧ _))

/-- Every built-in rule makes its term lighter. -/
theorem builtinRules_lighten : ∀ rule ∈ builtinRules, Lightens rule := by decide

/-- Every built-in rule is simple. -/
theorem builtinRules_simple : ∀ rule ∈ builtinRules, SimpleRule rule := by
  -- Both conditions are checked rule by rule.
  have parts : ∀ rule ∈ builtinRules, rule.action.isNone = true ∧ rule.lhs.simple = true ∧
      rule.rhs.simple = true ∧ ∀ name ∈ rule.rhs.vars, name ∈ rule.lhs.vars := by decide
  have root : ∀ rule ∈ builtinRules, ∃ kind inputs, rule.lhs = .node kind inputs := by
    simp [builtinRules, arithmeticRules, logicRules, canonicalRules, wilRuleCreateSimple]
  intro rule member
  obtain ⟨action, lhs, rhs, vars⟩ := parts rule member
  exact ⟨Option.isNone_iff_eq_none.mp action, root rule member, lhs, rhs, vars⟩

/-- A rule of the built-in kind is simple, whatever its switch and counter are. -/
theorem IsBuiltin.simple {rule : WILRewriteRule} (builtin : IsBuiltin rule) : SimpleRule rule := by
  obtain ⟨original, member, statsIndex, enabled, rfl⟩ := builtin
  obtain ⟨action, root, lhs, rhs, vars⟩ := builtinRules_simple original member
  exact ⟨action, root, lhs, rhs, vars⟩

/-- A rule of the built-in kind makes its term lighter. -/
theorem IsBuiltin.lightens {rule : WILRewriteRule} (builtin : IsBuiltin rule) : Lightens rule := by
  obtain ⟨original, member, statsIndex, enabled, rfl⟩ := builtin
  exact builtinRules_lighten original member

/-! One step. -/

/-- The cost of a pointer, where the null pointer is as light as a leaf. -/
def pointerCost (ctx : WILContext) : Option Nat → Nat
  | none => 1
  | some node => ((ctx.graph[node]?).map fun record => kindWeight record.kind).getD 1

/-- Every pointer costs something. -/
theorem pointerCost_pos (ctx : WILContext) (pointer : Option Nat) : 1 ≤ pointerCost ctx pointer := by
  cases pointer with
  | none => exact Nat.le_refl 1
  | some node =>
    cases found : ctx.graph[node]? with
    | none => simp [pointerCost, found]
    | some record => simpa [pointerCost, found] using kindWeight_pos record.kind

/-- The weights of a graph's nodes, counted along every path. -/
abbrev WILContext.IsWeight (ctx : WILContext) (weight : Option Nat → Nat) : Prop :=
  Dag.IsWeight (pointerCost ctx) ctx.succ weight

/-- Names without repetitions weigh no more than all the bindings. -/
theorem sum_names_le {weight : Option Nat → Nat} {subst : WILSubstitution} {names : List String}
    (nodup : names.Nodup) (bound : ∀ name ∈ names, ∃ binding, subst.lookup name = some binding) :
    (names.map fun name => weight (wilSubstitutionLookup subst (some name))).sum ≤
      bindingsWeight weight subst := by
  -- Induction on the bindings: the first of them serves at most one of the names.
  induction subst generalizing names with
  | nil =>
    cases names with
    | nil => exact Nat.le_refl 0
    | cons name rest =>
      obtain ⟨binding, found⟩ := bound name (.head _)
      simp at found
  | cons entry rest next =>
    obtain ⟨key, value⟩ := entry
    -- The other names do not see the first binding.
    have other : ∀ name, name ≠ key →
        List.lookup name ((key, value) :: rest) = rest.lookup name := by
      intro name differs
      rw [List.lookup_cons, beq_eq_false_iff_ne.mpr differs]
    have later : ∀ others : List String, others.Nodup → (∀ name ∈ others, name ∈ names ∧ name ≠ key) →
        (others.map fun name =>
          weight (wilSubstitutionLookup ((key, value) :: rest) (some name))).sum ≤
          bindingsWeight weight rest := by
      -- They weigh no more than the other bindings, by the induction.
      intro others distinct known
      have same : (others.map fun name =>
          weight (wilSubstitutionLookup ((key, value) :: rest) (some name))) =
          others.map fun name => weight (wilSubstitutionLookup rest (some name)) := by
        refine List.map_congr_left fun name member => ?_
        simp only [wilSubstitutionLookup, Option.bind_some, other name (known name member).2]
      rw [same]
      refine next distinct fun name member => ?_
      obtain ⟨binding, found⟩ := bound name (known name member).1
      exact ⟨binding, (other name (known name member).2).symm.trans found⟩
    by_cases member : key ∈ names
    · have split := (List.perm_cons_erase member).map fun name =>
        weight (wilSubstitutionLookup ((key, value) :: rest) (some name))
      have tail := later (names.erase key) (nodup.erase key) fun name inside =>
        ⟨List.mem_of_mem_erase inside, (nodup.mem_erase_iff.mp inside).1⟩
      have head : wilSubstitutionLookup ((key, value) :: rest) (some key) = value := by
        simp [wilSubstitutionLookup]
      -- The first binding serves its own name, the others serve the rest.
      rw [split.sum_eq, List.map_cons, List.sum_cons, head]
      simp only [bindingsWeight, List.map_cons, List.sum_cons] at tail ⊢
      omega
    · have tail := later names nodup fun name inside =>
        ⟨inside, fun equal => member (equal ▸ inside)⟩
      simp only [bindingsWeight, List.map_cons, List.sum_cons] at tail ⊢
      omega

section Step

variable {equivalent : WILContext → Option Nat → Option Nat → Bool} {before middle after : WILContext}
  {rule : WILRewriteRule} {node replacement : Nat} {subst : WILSubstitution}

/-- What a pointer costs depends on the kind of its node only. -/
theorem pointerCost_of_core {ref : Nat} (core : (after.graph[ref]?).map WILNode.core =
      (before.graph[ref]?).map WILNode.core) :
    pointerCost after (some ref) = pointerCost before (some ref) := by
  -- Cores determine kinds, and kinds determine costs.
  have kinds : ((after.graph[ref]?).map WILNode.core).map (kindWeight ·.kind) =
      ((before.graph[ref]?).map WILNode.core).map (kindWeight ·.kind) := by rw [core]
  simp only [Option.map_map] at kinds
  exact congrArg (·.getD 1) kinds

/-- The replacement of a lightening rule is lighter than the node it was matched at. -/
theorem RuleStep.lighter
    (step : RuleStep equivalent before rule node replacement subst middle after)
    (simple : SimpleRule rule) (lightens : Lightens rule) {weight : Option Nat → Nat}
    (weighs : middle.IsWeight weight) : weight (some replacement) < weight (some node) := by
  have positive : ∀ pointer, 1 ≤ weight pointer := fun pointer =>
    Nat.le_trans (pointerCost_pos middle pointer) (weighs.cost_le pointer)
  -- Old nodes have the same weights before the replacement was built.
  have old : ∀ ref record, before.graph[ref]? = some record →
      weight (some ref) = kindWeight record.kind + ((before.targets ref).map weight).sum := by
    intro ref record found
    have inside := (List.getElem?_eq_some_iff.mp found).1
    have cost : pointerCost middle (some ref) = kindWeight record.kind := by
      rw [pointerCost_of_core (step.built.core ref inside), pointerCost, found]
      rfl
    rw [weighs.eq, cost, show middle.succ (some ref) = middle.targets ref from rfl,
      step.built.targets ref inside]
  -- Fresh nodes weigh what the pattern says.
  -- A leaf has no slots that could weigh.
  have fresh : middle.ObeysFrom before.graph.length weightInterp weight := by
    intro ref record past found
    have leaf : record.kind.isLeaf = true → (middle.targets ref).map weight = [] := by
      intro isLeaf
      have arity : record.kind.arity = none := by
        cases kind : record.kind <;> simp_all [WILNodeKind.isLeaf, WILNodeKind.arity]
      rw [step.built.leaves ref record past found arity, List.map_nil]
    rw [weightInterp_denote leaf, weighs.eq]
    simp [pointerCost, found, succ]
  have matched := wrsMatchPattern_accounts positive old simple.lhs step.matched
  have built := step.value Nat weightInterp weight fresh
  rw [WILPattern.eval_weightInterp _ simple.rhs] at built
  -- The names of the right side weigh no more than the bindings, and the rule is lighter on the
  -- right.
  have bindings := @sum_names_le weight subst _ lightens.1 fun name member =>
    (step.bound name (simple.vars name member)).imp fun _ found => found.1
  have names : subst.length = (bindNames [] rule.lhs.vars).length := by
    have keys := congrArg List.length matched.keys
    rwa [List.length_map, List.map_nil] at keys
  have balance := matched.weights
  have drop := lightens.2
  simp only [bindingsWeight, List.map_nil, List.sum_nil, List.length_nil] at balance bindings
  omega

/-- Building keeps the weights of old nodes. -/
theorem Built.weight_eq {base : Nat} {allowed : Option Nat → Prop}
    (built : Built base allowed before middle) (closed : before.Closed)
    (grounded : Dag.Grounded before.succ) {weight weight' : Option Nat → Nat}
    (weighs : before.IsWeight weight) (weighs' : middle.IsWeight weight') (pointer : Option Nat)
    (inside : ∀ ref, pointer = some ref → ref < before.graph.length) :
    weight' pointer = weight pointer := by
  induction pointer using grounded.induction with
  | _ pointer next =>
    cases pointer with
    | none => rw [weighs.eq, weighs'.eq]; rfl
    | some ref =>
      have old := inside ref rfl
      rw [weighs.eq, weighs'.eq, pointerCost_of_core (built.core ref old),
        show middle.succ (some ref) = middle.targets ref from rfl, built.targets ref old]
      -- The inputs of an old node are old, so their weights are kept by induction.
      have inputs : (before.targets ref).map weight' = (before.targets ref).map weight := by
        refine List.map_congr_left fun target member => next target member fun input equal => ?_
        exact closed ref input (equal ▸ member)
      rw [inputs]
      rfl

/-- A step of a lightening rule builds without changing weights, and then redirects every use of
the node it was applied at to a lighter one. -/
theorem RuleStep.redirects
    (step : RuleStep equivalent before rule node replacement subst middle after)
    (simple : SimpleRule rule) (lightens : Lightens rule) (consistent : DefUse before)
    (grounded : Dag.Grounded before.succ) :
    Dag.Grounded middle.succ ∧ Dag.Grounded after.succ ∧
      (∀ pointer, after.succ pointer = (middle.succ pointer).map (redirect node replacement)) ∧
      ∀ weight weight', before.IsWeight weight → after.IsWeight weight' →
        ∃ between, middle.IsWeight between ∧ Dag.IsWeight (pointerCost middle) after.succ weight' ∧
          (∀ ref < before.graph.length, between (some ref) = weight (some ref)) ∧
          weight' (redirect node replacement (some node)) < between (some node) := by
  have old : ∀ ref, Relation.TransGen (Dag.Edge before.succ) (some node) (some ref) →
      ref < before.graph.length := fun _ path => consistent.closed.inside_of_below path
  have middleGrounded := step.built.grounded consistent.closed old grounded
  have apart := step.built.apart consistent grounded (fun _ path => path) old step.inside
    step.placed.1
  have same := sameNodes_replaceAllUses middle (some node) (some replacement)
  rw [← step.after] at same
  -- The edges are those of the middle graph, with the node replaced.
  have moved : ∀ pointer, after.succ pointer =
      (middle.succ pointer).map (redirect node replacement) := by
    intro pointer
    cases pointer with
    | none => rfl
    | some ref =>
      rw [step.after]
      exact step.built.consistent.targets_replaceAllUses node replacement ref
  have edges : ∀ {source sink}, Dag.Edge after.succ source sink → Dag.Edge middle.succ source sink ∨
      sink = some replacement ∧ Dag.Edge middle.succ source (some node) := by
    intro source sink edge
    rw [step.after] at edge
    exact step.built.consistent.edge_replaceAllUses edge
  refine ⟨middleGrounded, middleGrounded.redirected (fun _ _ => edges) apart, moved, ?_⟩
  intro weight weight' weighs weighs'
  obtain ⟨between, (weighsMiddle : middle.IsWeight between)⟩ := middleGrounded.exists_valuation _
  -- Costs depend on the kind and constant of a record only.
  have costs : pointerCost after = pointerCost middle := by
    funext pointer
    cases pointer with
    | none => rfl
    | some ref => exact pointerCost_of_core (same.core ref)
  have redirected : Dag.IsWeight (pointerCost middle) after.succ weight' := costs ▸ weighs'
  refine ⟨between, weighsMiddle, redirected, fun ref inside => ?_, ?_⟩
  -- An old node weighs as before, since what it refers to is as before.
  · exact step.built.weight_eq consistent.closed grounded weighs weighsMiddle (some ref)
      fun _ equal => by cases equal; exact inside
  · -- Nothing is redirected below the replacement.
    have unchanged := weighsMiddle.unchanged redirected middleGrounded moved
      (fun _ other => if_neg other) apart
    rw [redirect, if_pos rfl, unchanged]
    exact step.lighter simple lightens weighsMiddle

/-- A step of a lightening rule makes every node weigh less that reaches the node it was applied
at, where the replacement stands for that node itself. -/
theorem RuleStep.weight_lt
    (step : RuleStep equivalent before rule node replacement subst middle after)
    (simple : SimpleRule rule) (lightens : Lightens rule) (consistent : DefUse before)
    (grounded : Dag.Grounded before.succ) :
    DefUse after ∧ Dag.Grounded after.succ ∧ replacement < after.graph.length ∧
      before.graph.length ≤ after.graph.length ∧
      ∀ weight weight' root, before.IsWeight weight → after.IsWeight weight' →
        root < before.graph.length → Dag.Reach before.succ (some root) (some node) →
        weight' (some (if node = root then replacement else root)) < weight (some root) := by
  obtain ⟨middleGrounded, afterGrounded, moved, weights⟩ :=
    step.redirects simple lightens consistent grounded
  have same := sameNodes_replaceAllUses middle (some node) (some replacement)
  -- Redirecting keeps the well-formedness of the graph.
  rw [← step.after] at same
  refine ⟨?_, afterGrounded, ?_, ?_, ?_⟩
  · rw [step.after]
    exact step.built.consistent.replaceAllUses _ _ step.placed.2
  · rw [same.length]
    exact step.placed.2 replacement rfl
  · rw [same.length]
    exact step.built.longer
  -- The root is replaced by a lighter node, or lies above the replaced one.
  · intro weight weight' root weighs weighs' inside path
    obtain ⟨between, weighsMiddle, redirected, start, lighter⟩ := weights weight weight' weighs weighs'
    by_cases here : node = root
    · rw [if_pos here, ← start root inside, ← here]
      simpa [redirect] using lighter
    · rw [if_neg here, ← start root inside]
      have above : Relation.TransGen (Dag.Edge before.succ) (some root) (some node) := by
        rcases Relation.reflTransGen_iff_eq_or_transGen.mp path with equal | strict
        · exact absurd (Option.some.inj equal) here
        · exact strict
      -- Building keeps the edges of old nodes.
      have lifted : Relation.TransGen (Dag.Edge middle.succ) (some root) (some node) := by
        refine above.lift id fun source sink edge => ?_
        cases source with
        | none => simp [Dag.Edge, succ] at edge
        | some ref =>
          have slots := step.built.targets ref (inside_of_target edge)
          show sink ∈ middle.targets ref
          rw [slots]
          exact edge
      exact weighsMiddle.lt redirected middleGrounded moved (fun _ other => if_neg other) lighter
        lifted

/-- A step of a lightening rule makes no node heavier. -/
theorem RuleStep.weight_le
    (step : RuleStep equivalent before rule node replacement subst middle after)
    (simple : SimpleRule rule) (lightens : Lightens rule) (consistent : DefUse before)
    (grounded : Dag.Grounded before.succ) {weight weight' : Option Nat → Nat}
    (weighs : before.IsWeight weight) (weighs' : after.IsWeight weight') {ref : Nat}
    (inside : ref < before.graph.length) : weight' (some ref) ≤ weight (some ref) := by
  -- Building changes no weight, and redirecting none upwards.
  obtain ⟨middleGrounded, -, moved, weights⟩ := step.redirects simple lightens consistent grounded
  obtain ⟨between, weighsMiddle, redirected, start, lighter⟩ := weights weight weight' weighs weighs'
  rw [← start ref inside]
  exact weighsMiddle.le redirected middleGrounded moved (fun _ other => if_neg other) lighter _

end Step

/-! Runs. -/

section Runs

-- The rules that steps may use, in any selection and order.
variable (equivalent : WILContext → Option Nat → Option Nat → Bool)
  (allowed : WILRewriteRule → Prop)

/-- A successful `wilRewriteSystemApplyAt` at a node below the root. -/
structure ApplyStep (root : Nat) (before : WILContext) (node : Nat) (after : WILContext)
    (replacement : Nat) : Prop where
  reached : Dag.Reach before.succ (some root) (some node)
  applied : ∃ sys sys', sys.ctx = before ∧ (∀ rule ∈ sys.rules, allowed rule) ∧
    wilRewriteSystemApplyAt equivalent sys (some node) = (sys', some replacement) ∧
    sys'.ctx = after

/-- A step after which the replacement of the root becomes the root, as in the loops over whole
passes. -/
def FollowsRoot (current next : WILContext × Nat) : Prop :=
  ∃ node replacement, ApplyStep equivalent allowed current.2 current.1 node next.1 replacement ∧
    next.2 = if node = current.2 then replacement else current.2

/-- No run that follows the root goes on for ever. -/
def Terminating : Prop :=
  ∀ (ctx : WILContext) (root : Nat), DefUse ctx → ctx.Acyclic → root < ctx.graph.length →
    ¬ ∃ run : Nat → WILContext × Nat, run 0 = (ctx, root) ∧
      ∀ index, FollowsRoot equivalent allowed (run index) (run (index + 1))

variable {equivalent allowed}

/-- The weight of the root falls with every step of lightening rules. -/
theorem FollowsRoot.weight_lt
    (lightening : ∀ rule, allowed rule → SimpleRule rule ∧ Lightens rule)
    {current next : WILContext × Nat} (step : FollowsRoot equivalent allowed current next)
    (consistent : DefUse current.1) (grounded : Dag.Grounded current.1.succ)
    (inside : current.2 < current.1.graph.length) :
    DefUse next.1 ∧ Dag.Grounded next.1.succ ∧ next.2 < next.1.graph.length ∧
      ∀ weight weight', current.1.IsWeight weight → next.1.IsWeight weight' →
        weight' (some next.2) < weight (some current.2) := by
  obtain ⟨node, replacement, ⟨reached, sys, sys', start, loaded, applied, finish⟩, root⟩ := step
  rw [← start] at consistent grounded reached inside ⊢
  rw [← finish, root]
  -- The step is one rule applied at a reached node, and the rule lightens.
  obtain ⟨-, -, rule, member, -, subst, middle, step⟩ := wilRewriteSystemApplyAt_some
    (fun rule member => (lightening rule (loaded rule member)).1) consistent applied
  obtain ⟨simple, lightens⟩ := lightening rule (loaded rule member)
  obtain ⟨consistent', grounded', placed, longer, falls⟩ :=
    step.weight_lt simple lightens consistent grounded
  refine ⟨consistent', grounded', ?_, fun weight weight' weighs weighs' =>
    falls weight weight' current.2 weighs weighs' inside reached⟩
  split
  · exact placed
  · exact Nat.lt_of_lt_of_le inside longer

/-- Lightening rules terminate. -/
theorem terminating_of_lightens
    (lightening : ∀ rule, allowed rule → SimpleRule rule ∧ Lightens rule) :
    Terminating equivalent allowed := by
  rintro ctx root consistent acyclic inside ⟨run, start, steps⟩
  -- The graph stays well formed along the run, so its nodes have weights throughout.
  have formed : ∀ index, DefUse (run index).1 ∧ Dag.Grounded (run index).1.succ ∧
      (run index).2 < (run index).1.graph.length := by
    intro index
    induction index with
    | zero => rw [start]; exact ⟨consistent, acyclic.grounded, inside⟩
    | succ index next =>
      obtain ⟨defUse, grounded, placed⟩ := next
      obtain ⟨defUse', grounded', placed', -⟩ :=
        (steps index).weight_lt lightening defUse grounded placed
      exact ⟨defUse', grounded', placed'⟩
  choose weight weighs using fun index =>
    (formed index).2.1.exists_valuation fun node inputs =>
      pointerCost (run index).1 node + inputs.sum
  -- The weights of the roots would fall for ever.
  have falls : ∀ index, weight (index + 1) (some (run (index + 1)).2) <
      weight index (some (run index).2) := by
    intro index
    obtain ⟨defUse, grounded, placed⟩ := formed index
    obtain ⟨-, -, -, less⟩ := (steps index).weight_lt lightening defUse grounded placed
    exact less (weight index) (weight (index + 1)) (weighs index) (weighs (index + 1))
  -- So after as many steps as the first root weighs nothing would be left.
  have bounded : ∀ index, weight index (some (run index).2) + index ≤ weight 0 (some (run 0).2) := by
    intro index
    induction index with
    | zero => exact Nat.le_refl _
    | succ index next =>
      have less := falls index
      omega
  have last := bounded (weight 0 (some (run 0).2) + 1)
  omega

/-- No run of the built-in rules goes on for ever, when the replacement of the root becomes the
root. -/
theorem builtin_rules_terminate (equivalent : WILContext → Option Nat → Option Nat → Bool)
    (ctx : WILContext) (root : Nat) (consistent : DefUse ctx) (acyclic : ctx.Acyclic)
    (inside : root < ctx.graph.length) :
    ¬ ∃ run : Nat → WILContext × Nat, run 0 = (ctx, root) ∧
      ∀ index, FollowsRoot equivalent IsBuiltin (run index) (run (index + 1)) :=
  terminating_of_lightens (fun _ builtin => ⟨builtin.simple, builtin.lightens⟩) ctx root consistent
    acyclic inside

/-- Adding zero to a parameter. -/
def addZero : WILContext :=
  runCalls (empty 7) [.makeParam 0 .i32 none, .makeConstInt 0 .i32, .makeBinary .add (some 0) (some 1)]

/-- The sum with zero has no infinite run. -/
theorem builtin_rules_terminate_add_zero :
    ¬ ∃ run : Nat → WILContext × Nat, run 0 = (addZero, 2) ∧
      ∀ index, FollowsRoot (fun _ left right => left == right) IsBuiltin (run index) (run (index + 1)) :=
  builtin_rules_terminate _ addZero 2 ((defUse_empty 7).calls _ (by decide))
    (Ordered.acyclic (by decide)) (by decide)

/-- With a fixed root the same rule applies at it again and again. -/
theorem builtin_rules_repeat_at_root :
    ¬ ∀ (equivalent : WILContext → Option Nat → Option Nat → Bool) (ctx : WILContext) (root : Nat),
      DefUse ctx → ctx.Acyclic → root < ctx.graph.length →
      ¬ ∃ run : Nat → WILContext, run 0 = ctx ∧
        ∀ index, ∃ node replacement,
          ApplyStep equivalent IsBuiltin root (run index) node (run (index + 1)) replacement := by
  intro claimed
  refine claimed (fun _ left right => left == right) addZero 2
    ((defUse_empty 7).calls _ (by decide)) (Ordered.acyclic (by decide)) (by decide)
    ⟨fun _ => addZero, rfl, fun _ => ⟨2, 0, .refl, ?_⟩⟩
  -- The sum itself has no uses to redirect, so the graph stays as it is.
  let sys := wilRewriteSystemAddAllBuiltinRules (wilRewriteSystemCreate addZero)
  let outcome := wilRewriteSystemApplyAt (fun _ left right => left == right) sys (some 2)
  have unchanged : outcome.1.ctx = addZero := by decide
  refine ⟨sys, outcome.1, rfl, fun rule member => ?_, ?_, unchanged⟩
  · rcases mem_wilRewriteSystemAddAllBuiltinRules member with earlier | builtin
    · simp [wilRewriteSystemCreate] at earlier
    · exact builtin
  · exact Prod.ext rfl (show outcome.2 = some 0 by decide)

end Runs

end Wirble
