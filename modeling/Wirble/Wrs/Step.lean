import Wirble.Wrs.Apply
import Wirble.Wil.Evolve

/-! What a successful match says, and what building a right-hand side adds to the graph. -/

namespace Wirble

open WILContext

section Match

variable (equivalent : WILContext → Option Nat → Option Nat → Bool) (ctx : WILContext)

mutual

/-- The substitution makes a simple pattern describe the graph below a pointer. -/
def Covers (subst : WILSubstitution) : WILPattern → Option Nat → Prop
  | .var (some name), node =>
    ∃ bound, subst.lookup name = some bound ∧ (bound = node ∨ equivalent ctx bound node = true)
  | .constInt value, node =>
    ∃ record, ctx.deref node = some record ∧ record.kind = .constInt ∧ record.constInt = value
  | .constBool value, node =>
    ∃ record, ctx.deref node = some record ∧ record.kind = .constBool ∧ record.constBool = value
  | .node kind inputs, node =>
    ∃ ref record, node = some ref ∧ ctx.graph[ref]? = some record ∧ record.kind = kind ∧
      CoversList subst inputs (ctx.targets ref)
  | _, _ => False

/-- The substitution makes patterns describe the graph below pointers, one for one. -/
def CoversList (subst : WILSubstitution) : List WILPattern → List (Option Nat) → Prop
  | [], [] => True
  | pattern :: patterns, node :: nodes =>
    Covers subst pattern node ∧ CoversList subst patterns nodes
  | _, _ => False

end

variable {equivalent ctx}

/-- A found binding is kept when more are appended. -/
theorem lookup_append_of_some {subst : WILSubstitution} {name : String} {bound : Option Nat}
    (found : subst.lookup name = some bound) (more : WILSubstitution) :
    (subst ++ more).lookup name = some bound := by
  simp [List.lookup_append, found]

mutual

/-- More bindings describe the same graph. -/
theorem Covers.append {subst : WILSubstitution} (more : WILSubstitution) :
    ∀ {pattern : WILPattern} {node : Option Nat},
      Covers equivalent ctx subst pattern node →
      Covers equivalent ctx (subst ++ more) pattern node
  | .var (some name), node, covered => by
    obtain ⟨bound, found, agrees⟩ := covered
    exact ⟨bound, lookup_append_of_some found more, agrees⟩
  | .constInt _, _, covered => covered
  | .constBool _, _, covered => covered
  | .node kind inputs, node, covered => by
    -- The inputs are covered by the same nodes.
    obtain ⟨ref, record, pointer, found, sameKind, below⟩ := covered
    exact ⟨ref, record, pointer, found, sameKind, CoversList.append more below⟩
  | .var none, _, covered | .null, _, covered | .constFloat _, _, covered
  | .wildcard, _, covered | .predicate _, _, covered | .sequence _ _, _, covered
  | .refinement _, _, covered => covered.elim

/-- Patterns that are covered stay covered when more names are bound. -/
theorem CoversList.append {subst : WILSubstitution} (more : WILSubstitution) :
    ∀ {patterns : List WILPattern} {nodes : List (Option Nat)},
      CoversList equivalent ctx subst patterns nodes →
      CoversList equivalent ctx (subst ++ more) patterns nodes
  | [], [], covered => covered
  | _ :: _, _ :: _, covered => ⟨Covers.append more covered.1, CoversList.append more covered.2⟩
  | [], _ :: _, covered | _ :: _, [], covered => covered.elim

end

/-- What a match of a simple pattern adds to the substitution. -/
structure Extends (subst extended : WILSubstitution) (names : List String)
    (reached : Option Nat → Prop) : Prop where
  suffix : ∃ more, extended = subst ++ more ∧ ∀ entry ∈ more, reached entry.2
  bound : ∀ name ∈ names, ∃ node, extended.lookup name = some node

/-- Binding a name extends the assignment by that name, which then covers the variable. -/
theorem bind_spec {subst extended : WILSubstitution} {name : String} {node : Option Nat}
    (bound : wrsSubstitutionBind equivalent ctx subst (some name) node = some extended) :
    Extends subst extended [name] (· = node) ∧
      Covers equivalent ctx extended (.var (some name)) node := by
  simp only [wrsSubstitutionBind] at bound
  cases found : subst.lookup name with
  | some known =>
    -- A bound name leaves the substitution alone and demands an equivalent node.
    simp only [found, Option.ite_none_right_eq_some, Option.some.injEq] at bound
    obtain ⟨agrees, rfl⟩ := bound
    refine ⟨⟨⟨[], by simp, by simp⟩, ?_⟩, ⟨known, found, .inr agrees⟩⟩
    intro other member
    cases List.mem_singleton.mp member
    exact ⟨known, found⟩
  | none =>
    simp only [found, Option.some.injEq] at bound
    subst bound
    -- A new name is bound at the end, and found there.
    have fresh : (subst ++ [(name, node)]).lookup name = some node := by
      simp [List.lookup_append, found]
    refine ⟨⟨⟨[(name, node)], rfl, by simp⟩, ?_⟩, ⟨node, fresh, .inl rfl⟩⟩
    intro other member
    cases List.mem_singleton.mp member
    exact ⟨node, fresh⟩

mutual

/-- A match of a simple pattern covers the node, binding nodes below it. -/
theorem wrsMatchPattern_spec {subst extended : WILSubstitution} :
    ∀ {pattern : WILPattern} {node : Option Nat}, pattern.simple = true →
      wrsMatchPattern equivalent ctx subst pattern node = some extended →
      Extends subst extended pattern.vars (Dag.Reach ctx.succ node) ∧
        Covers equivalent ctx extended pattern node
  | .var (some name), node, _, found => by
    -- A first occurrence is bound to the node, a later one agrees with it.
    obtain ⟨extension, covered⟩ := bind_spec (by simpa [wrsMatchPattern] using found)
    obtain ⟨⟨more, split, entries⟩, bound⟩ := extension
    refine ⟨⟨⟨more, split, fun entry member => ?_⟩, bound⟩, covered⟩
    rw [entries entry member]
  | .constInt value, node, _, found => by
    -- A constant matches a node that holds it, and binds nothing.
    simp only [wrsMatchPattern, wrsMatchPattern.matchConstantAt, Option.ite_none_right_eq_some,
      Option.some.injEq] at found
    obtain ⟨accepted, rfl⟩ := found
    refine ⟨⟨⟨[], by simp, by simp⟩, by simp [WILPattern.vars]⟩, ?_⟩
    cases stored : ctx.deref node with
    | none => simp [stored] at accepted
    | some record =>
      simp only [stored, Option.elim_some, wrsMatchConstant, Bool.and_eq_true,
        beq_iff_eq] at accepted
      exact ⟨record, stored, accepted.2⟩
  | .constBool value, node, _, found => by
    -- A truth value is matched in the same way.
    simp only [wrsMatchPattern, wrsMatchPattern.matchConstantAt, Option.ite_none_right_eq_some,
      Option.some.injEq] at found
    obtain ⟨accepted, rfl⟩ := found
    refine ⟨⟨⟨[], by simp, by simp⟩, by simp [WILPattern.vars]⟩, ?_⟩
    cases stored : ctx.deref node with
    | none => simp [stored] at accepted
    | some record =>
      simp only [stored, Option.elim_some, wrsMatchConstant, Bool.and_eq_true,
        beq_iff_eq] at accepted
      exact ⟨record, stored, accepted.2⟩
  | .node kind inputs, node, simple, found => by
    -- An operator needs a node of its kind with as many inputs.
    simp only [WILPattern.simple, Bool.and_eq_true] at simple
    cases node with
    | none => simp [wrsMatchPattern] at found
    | some ref =>
      cases stored : ctx.graph[ref]? with
      | none => simp [wrsMatchPattern, deref, stored] at found
      | some record =>
        simp only [wrsMatchPattern, deref, Option.bind_some, stored,
          Option.ite_none_right_eq_some] at found
        obtain ⟨⟨sameKind, count⟩, below⟩ := found
        -- The record has as many targets as the pattern has inputs, all of them below the node.
        have lengths : (ctx.targets ref).length = inputs.length := by
          rw [targets_of_node stored, WILNode.targets, List.length_map, count]
        have reaches : ∀ target ∈ ctx.targets ref, ∀ other, Dag.Reach ctx.succ target other →
            Dag.Reach ctx.succ (some ref) other := fun target member other path =>
          .head member path
        obtain ⟨⟨suffix, bound⟩, covered⟩ := matchInputs_spec reaches simple.2 lengths below
        exact ⟨⟨suffix, bound⟩, ⟨ref, record, rfl, stored, sameKind, covered⟩⟩
  | .var none, _, simple, _ | .null, _, simple, _ | .constFloat _, _, simple, _
  | .wildcard, _, simple, _ | .predicate _, _, simple, _ | .sequence _ _, _, simple, _
  | .refinement _, _, simple, _ => by simp [WILPattern.simple] at simple

/-- Matching inputs one after the other covers all of them. -/
theorem matchInputs_spec {reached : Option Nat → Prop} {subst extended : WILSubstitution} :
    ∀ {patterns : List WILPattern} {nodes : List (Option Nat)},
      (∀ node ∈ nodes, ∀ target, Dag.Reach ctx.succ node target → reached target) →
      WILPattern.simpleList patterns = true → nodes.length = patterns.length →
      matchInputs equivalent ctx subst patterns nodes = some extended →
      Extends subst extended (WILPattern.varsList patterns) reached ∧
        CoversList equivalent ctx extended patterns nodes
  | [], [], _, _, _, found => by
    simp only [matchInputs, Option.some.injEq] at found
    subst found
    exact ⟨⟨⟨[], by simp, by simp⟩, by simp [WILPattern.varsList]⟩, trivial⟩
  | [], _ :: _, _, _, lengths, _ => by simp at lengths
  | _ :: _, [], _, _, lengths, _ => by simp at lengths
  | pattern :: patterns, node :: nodes, reaches, simple, lengths, found => by
    simp only [WILPattern.simpleList, Bool.and_eq_true] at simple
    simp only [matchInputs, Option.bind_eq_some_iff] at found
    obtain ⟨middle, first, rest⟩ := found
    -- The first pattern binds names, and the others extend its bindings.
    obtain ⟨⟨⟨more, split, entries⟩, bound⟩, covered⟩ := wrsMatchPattern_spec simple.1 first
    obtain ⟨⟨⟨others, split', entries'⟩, bound'⟩, covered'⟩ :=
      matchInputs_spec (fun target member => reaches target (.tail _ member))
        simple.2 (by simpa using lengths) rest
    subst split
    subst split'
    -- What the first input binds stays when the others bind more.
    refine ⟨⟨⟨more ++ others, by rw [List.append_assoc], ?_⟩, ?_⟩,
      ⟨Covers.append others covered, covered'⟩⟩
    · intro entry member
      rcases List.mem_append.mp member with early | late
      · exact reaches node (.head _) entry.2 (entries entry early)
      · exact entries' entry late
    · intro name member
      rcases List.mem_append.mp member with early | late
      · obtain ⟨target, found⟩ := bound name early
        exact ⟨target, lookup_append_of_some found others⟩
      · exact bound' name late

end

/-- A match of an operator pattern binds proper descendants of the node. -/
theorem wilPatternMatch_spec {kind : WILNodeKind} {inputs : List WILPattern}
    (simple : (WILPattern.node kind inputs).simple = true) {node : Nat} {found : WILMatch}
    (matched : wilPatternMatch equivalent ctx (.node kind inputs) (some node) = some found) :
    Extends [] found.substitution (WILPattern.node kind inputs).vars
        (Relation.TransGen (Dag.Edge ctx.succ) (some node)) ∧
      Covers equivalent ctx found.substitution (.node kind inputs) (some node) := by
  simp only [wilPatternMatch, Option.map_eq_some_iff] at matched
  obtain ⟨substitution, succeeded, rfl⟩ := matched
  simp only [WILPattern.simple, Bool.and_eq_true] at simple
  cases stored : ctx.graph[node]? with
  | none => simp [wrsMatchPattern, deref, stored] at succeeded
  | some record =>
    simp only [wrsMatchPattern, deref, Option.bind_some, stored,
      Option.ite_none_right_eq_some] at succeeded
    obtain ⟨⟨sameKind, count⟩, below⟩ := succeeded
    have lengths : (ctx.targets node).length = inputs.length := by
      rw [targets_of_node stored, WILNode.targets, List.length_map, count]
    -- Whatever an input reaches lies properly below the node.
    have reaches : ∀ target ∈ ctx.targets node, ∀ other, Dag.Reach ctx.succ target other →
        Relation.TransGen (Dag.Edge ctx.succ) (some node) other := fun target member other path =>
      .head' member path
    obtain ⟨extension, covered⟩ := matchInputs_spec reaches simple.2 lengths below
    exact ⟨extension, ⟨node, record, rfl, stored, sameKind, covered⟩⟩

end Match

/-! Building a right-hand side. -/

section Build

variable {subst : WILSubstitution}

/-- Applying patterns gives one node for each pattern. -/
theorem wrsApplyPatterns_length (subst : WILSubstitution) (patterns : List WILPattern)
    (ctx : WILContext) :
    (wrsApplyPatterns subst patterns ctx).2.length = patterns.length := by
  induction patterns generalizing ctx with
  | nil => rfl
  | cons pattern rest next => simp [wrsApplyPatterns, next]

/-- An operator pattern of the right arity becomes one node over the nodes of its inputs. -/
theorem wrsApplyPattern_node (subst : WILSubstitution) {kind : WILNodeKind}
    {inputs : List WILPattern} (arity : kind.arity = some inputs.length) (ctx : WILContext) :
    ∃ (type : WILType) (slots : List (Option Nat × WILEdgeKind)),
      slots.map (·.1) = (wrsApplyPatterns subst inputs ctx).2 ∧
      wrsApplyPattern subst (.node kind inputs) ctx =
        ((wilBuild (wrsApplyPatterns subst inputs ctx).1 kind type none .zero slots).1,
          some (wrsApplyPatterns subst inputs ctx).1.graph.length) := by
  have length := wrsApplyPatterns_length subst inputs ctx
  simp only [wrsApplyPattern]
  generalize wrsApplyPatterns subst inputs ctx = built at length ⊢
  obtain ⟨grown, nodes⟩ := built
  simp only at length ⊢
  -- The arity decides which of the three builders is called.
  match inputs, nodes, length with
  | [_], [first], _ =>
    rw [arity]
    exact ⟨_, [(first, if kind = .returnNode then .control else .data)], rfl, rfl⟩
  | [_, _], [first, second], _ =>
    rw [arity]
    exact ⟨_, [(first, .data), (second, .data)], rfl, rfl⟩
  | [_, _, _], [first, second, third], _ =>
    -- Only a selection has three inputs.
    have select : kind = .select := by
      cases kind <;> simp [WILNodeKind.arity] at arity ⊢
    subst select
    exact ⟨_, [(first, .data), (second, .data), (third, .data)], rfl, rfl⟩
  | [], _, _ => cases kind <;> simp [WILNodeKind.arity] at arity
  | _ :: _ :: _ :: _ :: _, _, _ =>
    cases kind <;> simp [WILNodeKind.arity] at arity

variable {base : Nat} {allowed : Option Nat → Prop}

/-- Where a pointer of a grown graph may lie. -/
def Placed (base : Nat) (allowed : Option Nat → Prop) (ctx : WILContext) (pointer : Option Nat) :
    Prop :=
  Origin base allowed pointer ∧ ∀ ref, pointer = some ref → ref < ctx.graph.length

/-- A fresh constant has no inputs. -/
theorem wrsApplyPattern_const {ctx : WILContext} (consistent : DefUse ctx)
    (past : base ≤ ctx.graph.length) (kind : WILNodeKind) (type : WILType)
    (payload : WILNodePayload) :
    Built base allowed ctx (wilBuild ctx kind type none payload []).1 ∧
      Placed base allowed (wilBuild ctx kind type none payload []).1
        (some ctx.graph.length) := by
  -- A constant is a builder's node without inputs.
  refine ⟨.build consistent kind type none payload [] (by simp) (by simp) fun _ => rfl, ?_, ?_⟩
  · exact .inr ⟨_, rfl, past⟩
  · intro ref equal
    cases equal
    rw [length_build]
    exact Nat.lt_succ_self _

mutual

/-- Building a simple pattern only adds fresh nodes over the bound ones. -/
theorem wrsApplyPattern_built : ∀ {pattern : WILPattern} {ctx : WILContext},
    pattern.simple = true → DefUse ctx → base ≤ ctx.graph.length →
    (∀ name ∈ pattern.vars, allowed (wilSubstitutionLookup subst (some name))) →
    (∀ ref, allowed (some ref) → ref < ctx.graph.length) →
    Built base allowed ctx (wrsApplyPattern subst pattern ctx).1 ∧
      Placed base allowed (wrsApplyPattern subst pattern ctx).1
        (wrsApplyPattern subst pattern ctx).2
  | .var (some name), ctx, _, consistent, _, bound, inside => by
    -- A variable builds nothing: its pointer is the binding.
    refine ⟨.refl consistent, .inl (bound name (by simp [WILPattern.vars])), fun ref equal => ?_⟩
    refine inside ref ?_
    rw [← equal]
    exact bound name (by simp [WILPattern.vars])
  | .constInt value, ctx, _, consistent, past, _, _ =>
    wrsApplyPattern_const consistent past .constInt .i32 (.int value)
  | .constBool value, ctx, _, consistent, past, _, _ =>
    wrsApplyPattern_const consistent past .constBool .i1 (.bool value)
  | .node kind inputs, ctx, simple, consistent, past, bound, inside => by
    simp only [WILPattern.simple, Bool.and_eq_true, decide_eq_true_eq] at simple
    -- The inputs are built first, and the operator over them.
    obtain ⟨built, placed⟩ := wrsApplyPatterns_built simple.2 consistent past bound inside
    obtain ⟨type, slots, sources, result⟩ := wrsApplyPattern_node subst simple.1 ctx
    rw [result]
    -- The inputs are placed, so the parent's edges lead to where edges may lead.
    have parent := @Built.build base allowed _ built.consistent kind type none
      .zero slots
      (fun target member => (placed _ (sources ▸ member)).2 target rfl)
      (fun target member => (placed _ (sources ▸ member)).1)
      (fun leaf => by simp [simple.1] at leaf)
    refine ⟨built.trans parent, .inr ⟨_, rfl, Nat.le_trans past built.longer⟩, ?_⟩
    intro ref equal
    cases equal
    rw [length_build]
    exact Nat.lt_succ_self _
  | .var none, _, simple, _, _, _, _ | .null, _, simple, _, _, _, _
  | .constFloat _, _, simple, _, _, _, _ | .wildcard, _, simple, _, _, _, _
  | .predicate _, _, simple, _, _, _, _ | .sequence _ _, _, simple, _, _, _, _
  | .refinement _, _, simple, _, _, _, _ => by simp [WILPattern.simple] at simple

/-- Applying patterns only appends nodes, over those that their names stand for. -/
theorem wrsApplyPatterns_built : ∀ {patterns : List WILPattern} {ctx : WILContext},
    WILPattern.simpleList patterns = true → DefUse ctx → base ≤ ctx.graph.length →
    (∀ name ∈ WILPattern.varsList patterns, allowed (wilSubstitutionLookup subst (some name))) →
    (∀ ref, allowed (some ref) → ref < ctx.graph.length) →
    Built base allowed ctx (wrsApplyPatterns subst patterns ctx).1 ∧
      ∀ pointer ∈ (wrsApplyPatterns subst patterns ctx).2,
        Placed base allowed (wrsApplyPatterns subst patterns ctx).1 pointer
  | [], ctx, _, consistent, _, _, _ => ⟨.refl consistent, by simp [wrsApplyPatterns]⟩
  | pattern :: patterns, ctx, simple, consistent, past, bound, inside => by
    simp only [WILPattern.simpleList, Bool.and_eq_true] at simple
    -- The first pattern only adds nodes, so what the others may use is still inside.
    obtain ⟨first, placed⟩ := wrsApplyPattern_built simple.1 consistent past
      (fun name member => bound name (List.mem_append_left _ member)) inside
    obtain ⟨rest, others⟩ := wrsApplyPatterns_built simple.2 first.consistent
      (Nat.le_trans past first.longer)
      (fun name member => bound name (List.mem_append_right _ member))
      (fun ref member => Nat.lt_of_lt_of_le (inside ref member) first.longer)
    refine ⟨first.trans rest, fun pointer member => ?_⟩
    rcases List.mem_cons.mp member with rfl | later
    · exact ⟨placed.1, fun ref equal => Nat.lt_of_lt_of_le (placed.2 ref equal) rest.longer⟩
    · exact others pointer later

end

section Value

variable {V : Type} {interp : WILInterp V} {value : Option Nat → V}

mutual

/-- The built node has the value of the pattern. -/
theorem wrsApplyPattern_value : ∀ {pattern : WILPattern} {ctx : WILContext},
    pattern.simple = true → DefUse ctx → base ≤ ctx.graph.length →
    (∀ name ∈ pattern.vars, allowed (wilSubstitutionLookup subst (some name))) →
    (∀ ref, allowed (some ref) → ref < ctx.graph.length) →
    (wrsApplyPattern subst pattern ctx).1.ObeysFrom base interp value →
    value (wrsApplyPattern subst pattern ctx).2 =
      pattern.eval interp fun name => value (wilSubstitutionLookup subst (some name))
  | .var (some name), ctx, _, _, _, _, _, _ => rfl
  | .constInt constant, ctx, _, _, past, _, _, obeys => obeys_build past [] obeys
  | .constBool constant, ctx, _, _, past, _, _, obeys => obeys_build past [] obeys
  | .node kind inputs, ctx, simple, consistent, past, bound, inside, obeys => by
    simp only [WILPattern.simple, Bool.and_eq_true, decide_eq_true_eq] at simple
    obtain ⟨built, placed⟩ := wrsApplyPatterns_built simple.2 consistent past bound inside
    obtain ⟨type, slots, sources, result⟩ := wrsApplyPattern_node subst simple.1 ctx
    rw [result] at obeys ⊢
    have parent := @Built.build base allowed _ built.consistent kind type none
      .zero slots
      (fun target member => (placed _ (sources ▸ member)).2 target rfl)
      (fun target member => (placed _ (sources ▸ member)).1)
      (fun leaf => by simp [simple.1] at leaf)
    -- The operator is applied to the values of the inputs, which the smaller graph already fixes.
    have inputs := wrsApplyPatterns_value simple.2 consistent past bound inside
      (parent.obeysFrom obeys)
    have last := obeys_build (Nat.le_trans past built.longer) slots obeys
    rw [last, interp.denote_operator (by simp [simple.1]), WILPattern.eval, ← inputs, ← sources,
      List.map_map]
    rfl
  | .var none, _, simple, _, _, _, _, _ | .null, _, simple, _, _, _, _, _
  | .constFloat _, _, simple, _, _, _, _, _ | .wildcard, _, simple, _, _, _, _, _
  | .predicate _, _, simple, _, _, _, _, _ | .sequence _ _, _, simple, _, _, _, _, _
  | .refinement _, _, simple, _, _, _, _, _ => by simp [WILPattern.simple] at simple

/-- Applying patterns gives nodes with the values of the patterns. -/
theorem wrsApplyPatterns_value : ∀ {patterns : List WILPattern} {ctx : WILContext},
    WILPattern.simpleList patterns = true → DefUse ctx → base ≤ ctx.graph.length →
    (∀ name ∈ WILPattern.varsList patterns, allowed (wilSubstitutionLookup subst (some name))) →
    (∀ ref, allowed (some ref) → ref < ctx.graph.length) →
    (wrsApplyPatterns subst patterns ctx).1.ObeysFrom base interp value →
    (wrsApplyPatterns subst patterns ctx).2.map value =
      WILPattern.evalList interp (fun name => value (wilSubstitutionLookup subst (some name)))
        patterns
  | [], _, _, _, _, _, _, _ => rfl
  | pattern :: patterns, ctx, simple, consistent, past, bound, inside, obeys => by
    simp only [WILPattern.simpleList, Bool.and_eq_true] at simple
    have headBound := fun name member => bound name (List.mem_append_left _ member)
    have tailBound := fun name member => bound name (List.mem_append_right _ member)
    -- Values are read in the last graph, which obeys what the first pattern built as well.
    obtain ⟨first, -⟩ := wrsApplyPattern_built simple.1 consistent past headBound inside
    have tailInside := fun ref member => Nat.lt_of_lt_of_le (inside ref member) first.longer
    have tailPast := Nat.le_trans past first.longer
    obtain ⟨rest, -⟩ :=
      wrsApplyPatterns_built simple.2 first.consistent tailPast tailBound tailInside
    have head := wrsApplyPattern_value simple.1 consistent past headBound inside
      (rest.obeysFrom obeys)
    have tail :=
      wrsApplyPatterns_value simple.2 first.consistent tailPast tailBound tailInside obeys
    simp only [wrsApplyPatterns, List.map_cons, WILPattern.evalList, ← head, ← tail]

end

end Value

end Build

/-! One rule applied at one node. -/

/-- A pattern-to-pattern rule whose left side is an operator and binds what the right side reads. -/
structure SimpleRule (rule : WILRewriteRule) : Prop where
  action : rule.action = none
  root : ∃ kind inputs, rule.lhs = .node kind inputs
  lhs : rule.lhs.simple = true
  rhs : rule.rhs.simple = true
  vars : ∀ name ∈ rule.rhs.vars, name ∈ rule.lhs.vars

/-- What a successful application of a rule did to the graph. -/
structure RuleStep (equivalent : WILContext → Option Nat → Option Nat → Bool)
    (before : WILContext) (rule : WILRewriteRule) (node replacement : Nat)
    (subst : WILSubstitution) (middle after : WILContext) : Prop where
  inside : node < before.graph.length
  matched : wrsMatchPattern equivalent before [] rule.lhs (some node) = some subst
  covers : Covers equivalent before subst rule.lhs (some node)
  bound : ∀ name ∈ rule.lhs.vars, ∃ binding, subst.lookup name = some binding ∧
    Relation.TransGen (Dag.Edge before.succ) (some node) binding
  built : Built before.graph.length (Relation.TransGen (Dag.Edge before.succ) (some node))
    before middle
  placed : Placed before.graph.length (Relation.TransGen (Dag.Edge before.succ) (some node))
    middle (some replacement)
  value : ∀ (V : Type) (interp : WILInterp V) (value : Option Nat → V),
    middle.ObeysFrom before.graph.length interp value → value (some replacement) =
      rule.rhs.eval interp fun name => value (wilSubstitutionLookup subst (some name))
  after : after = wilNodeReplaceAllUses middle (some node) (some replacement)

/-- Whatever lies properly below a node of a closed graph is in the array. -/
theorem WILContext.Closed.inside_of_below {ctx : WILContext} (closed : ctx.Closed)
    {source : Option Nat} {ref : Nat}
    (path : Relation.TransGen (Dag.Edge ctx.succ) source (some ref)) : ref < ctx.graph.length := by
  -- The last step of the path is a slot.
  obtain ⟨user, _, edge⟩ := Relation.TransGen.tail'_iff.mp path
  cases user with
  | none => simp [Dag.Edge, succ] at edge
  | some user => exact closed user ref edge

section ApplyRule

variable {equivalent : WILContext → Option Nat → Option Nat → Bool}
  {sys sys' : WILRewriteSystem} {rule : WILRewriteRule}

/-- A simple right-hand side that builds nothing leaves the graph alone. -/
theorem wrsApplyPattern_null {pattern : WILPattern} {subst : WILSubstitution}
    {before after : WILContext} (simple : pattern.simple = true)
    (applied : wrsApplyPattern subst pattern before = (after, none)) : after = before := by
  cases pattern with
  | var name =>
    -- A variable bound to the null pointer.
    simp only [wrsApplyPattern, Prod.mk.injEq] at applied
    exact applied.1.symm
  | constInt | constBool => simp [wrsApplyPattern] at applied
  | node kind inputs =>
    simp only [WILPattern.simple, Bool.and_eq_true, decide_eq_true_eq] at simple
    obtain ⟨type, slots, _, result⟩ := wrsApplyPattern_node subst simple.1 before
    simp [result] at applied
  | _ => simp [WILPattern.simple] at simple

/-- A simple rule that returns nothing leaves the system alone. -/
theorem wrsApplyRule_none (simple : SimpleRule rule) {node : Option Nat}
    (applied : wrsApplyRule equivalent sys rule node = (sys', none)) : sys' = sys := by
  simp only [wrsApplyRule, simple.action] at applied
  split at applied
  · simpa using applied.symm
  · split at applied
    · simpa using applied.symm
    · rename_i found matched
      -- The rule matched, so its right-hand side built nothing.
      cases result : wilSubstitutionApply sys.ctx found.substitution rule.rhs with
      | mk ctx replacement =>
        cases replacement with
        | none =>
          have unchanged := wrsApplyPattern_null simple.rhs result
          subst unchanged
          simpa [result] using applied.symm
        | some replacement => simp [result] at applied

/-- A simple rule that returns a replacement built it below the node and redirected all uses. -/
theorem wrsApplyRule_some (simple : SimpleRule rule) (consistent : DefUse sys.ctx)
    {node replacement : Nat}
    (applied : wrsApplyRule equivalent sys rule (some node) = (sys', some replacement)) :
    rule.enabled = true ∧ sys'.rules = sys.rules ∧ sys'.strategy = sys.strategy ∧
      ∃ subst middle, RuleStep equivalent sys.ctx rule node replacement subst middle sys'.ctx := by
  simp only [wrsApplyRule, simple.action] at applied
  -- The rule is enabled and has matched, and it has built a replacement.
  split at applied
  · simp at applied
  · rename_i enabled
    split at applied
    · simp at applied
    · rename_i found matched
      cases result : wilSubstitutionApply sys.ctx found.substitution rule.rhs with
      | mk middle built =>
        cases built with
        | none => simp [result] at applied
        | some built =>
          simp only [result, Prod.mk.injEq, Option.some.injEq] at applied
          obtain ⟨rfl, rfl⟩ := applied
          -- The left side is an operator, so what it binds lies properly below the node.
          obtain ⟨kind, inputs, root⟩ := simple.root
          have lhs := simple.lhs
          rw [root] at matched lhs
          obtain ⟨⟨⟨more, split, entries⟩, bound⟩, covers⟩ := wilPatternMatch_spec lhs matched
          have below : ∀ name ∈ rule.lhs.vars, ∃ binding,
              found.substitution.lookup name = some binding ∧
              Relation.TransGen (Dag.Edge sys.ctx.succ) (some node) binding := by
            intro name member
            rw [root] at member
            obtain ⟨binding, read⟩ := bound name member
            refine ⟨binding, read, ?_⟩
            -- A binding that is found is one of the entries that the match made.
            obtain ⟨front, back, whole, -⟩ := List.lookup_eq_some_iff.mp read
            refine entries (name, binding) ?_
            rw [List.nil_append] at split
            rw [← split, whole]
            simp
          -- The right side uses those bindings only, so what it builds is placed over them.
          have allowed : ∀ name ∈ rule.rhs.vars,
              Relation.TransGen (Dag.Edge sys.ctx.succ) (some node)
                (wilSubstitutionLookup found.substitution (some name)) := by
            intro name member
            obtain ⟨binding, read, path⟩ := below name (simple.vars name member)
            simpa [wilSubstitutionLookup, read] using path
          have old : ∀ ref, Relation.TransGen (Dag.Edge sys.ctx.succ) (some node) (some ref) →
              ref < sys.ctx.graph.length := fun _ path => consistent.closed.inside_of_below path
          have grown := wrsApplyPattern_built simple.rhs consistent (Nat.le_refl _) allowed old
          simp only [wilSubstitutionApply] at result
          rw [result] at grown
          have nodeInside : node < sys.ctx.graph.length := by
            obtain ⟨ref, record, pointer, stored, -⟩ := covers
            cases pointer
            exact (List.getElem?_eq_some_iff.mp stored).1
          refine ⟨by simpa using enabled, rfl, rfl, found.substitution, middle, nodeInside, ?_, ?_,
            below, grown.1, grown.2, ?_, rfl⟩
          · -- The match records the bindings that matching the pattern made.
            obtain ⟨bindings, run, rfl⟩ := Option.map_eq_some_iff.mp matched
            rw [root]
            exact run
          · rw [root]
            exact covers
          · intro V interp value obeys
            have equation : value (wrsApplyPattern found.substitution rule.rhs sys.ctx).2 =
                rule.rhs.eval interp fun name =>
                  value (wilSubstitutionLookup found.substitution (some name)) :=
              wrsApplyPattern_value simple.rhs consistent (Nat.le_refl _) allowed old
                (by rw [result]; exact obeys)
            rw [result] at equation
            exact equation

/-- Rules tried in order: nothing changes until one of them succeeds. -/
theorem applyFirst_none {rules : List WILRewriteRule} (simple : ∀ rule ∈ rules, SimpleRule rule)
    {node : Option Nat} (applied : applyFirst equivalent rules sys node = (sys', none)) :
    sys' = sys := by
  induction rules generalizing sys with
  | nil => simpa [applyFirst] using applied.symm
  | cons rule rest next =>
    cases first : wrsApplyRule equivalent sys rule node with
    | mk tried result =>
      cases result with
      | none =>
        -- A rule that fails leaves the system alone, and the next one is tried.
        have unchanged := wrsApplyRule_none (simple rule (.head _)) first
        subst unchanged
        simp only [applyFirst, first] at applied
        exact next (fun other member => simple other (.tail _ member)) applied
      | some replacement => simp [applyFirst, first] at applied

/-- If some rule applies, the graph has been rewritten by one of the rules, and they are all kept.
-/
theorem applyFirst_some {rules : List WILRewriteRule} (simple : ∀ rule ∈ rules, SimpleRule rule)
    (consistent : DefUse sys.ctx) {node replacement : Nat}
    (applied : applyFirst equivalent rules sys (some node) = (sys', some replacement)) :
    sys'.rules = sys.rules ∧ sys'.strategy = sys.strategy ∧
      ∃ rule ∈ rules, rule.enabled = true ∧
        ∃ subst middle, RuleStep equivalent sys.ctx rule node replacement subst middle sys'.ctx := by
  induction rules generalizing sys with
  | nil => simp [applyFirst] at applied
  | cons rule rest next =>
    cases first : wrsApplyRule equivalent sys rule (some node) with
    | mk tried result =>
      cases result with
      | none =>
        -- This rule did nothing, so a later one succeeded on the same system.
        have unchanged := wrsApplyRule_none (simple rule (.head _)) first
        subst unchanged
        simp only [applyFirst, first] at applied
        obtain ⟨rules, strategy, found, member, rest⟩ :=
          next (fun other member => simple other (.tail _ member)) consistent applied
        exact ⟨rules, strategy, found, .tail _ member, rest⟩
      | some built =>
        simp only [applyFirst, first, Prod.mk.injEq, Option.some.injEq] at applied
        obtain ⟨rfl, rfl⟩ := applied
        obtain ⟨enabled, rules, strategy, step⟩ :=
          wrsApplyRule_some (simple rule (.head _)) consistent first
        exact ⟨rules, strategy, rule, .head _, enabled, step⟩

/-- A failed `wilRewriteSystemApplyAt` leaves the system alone. -/
theorem wilRewriteSystemApplyAt_none (simple : ∀ rule ∈ sys.rules, SimpleRule rule)
    {node : Option Nat} (applied : wilRewriteSystemApplyAt equivalent sys node = (sys', none)) :
    sys' = sys :=
  applyFirst_none simple applied

/-- A successful `wilRewriteSystemApplyAt` is one step of an enabled rule. -/
theorem wilRewriteSystemApplyAt_some (simple : ∀ rule ∈ sys.rules, SimpleRule rule)
    (consistent : DefUse sys.ctx) {node replacement : Nat}
    (applied : wilRewriteSystemApplyAt equivalent sys (some node) = (sys', some replacement)) :
    sys'.rules = sys.rules ∧ sys'.strategy = sys.strategy ∧
      ∃ rule ∈ sys.rules, rule.enabled = true ∧
        ∃ subst middle, RuleStep equivalent sys.ctx rule node replacement subst middle sys'.ctx :=
  applyFirst_some simple consistent applied

end ApplyRule

end Wirble
