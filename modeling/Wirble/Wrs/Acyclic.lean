import Wirble.Wrs.Validate
import Wirble.Wrs.Step

/-! Rewriting with rules of any patterns: which nodes a match binds, what a right-hand side leads
to, and which graphs stay acyclic. -/

namespace Wirble

open WILContext

/-! Matching. -/

section Match

variable {equivalent : WILContext → Option Nat → Option Nat → Bool} {ctx : WILContext}

/-- A binding is the node itself or was there before. -/
theorem bind_binds {subst extended : WILSubstitution} {name : Option String} {node : Option Nat}
    (bound : wrsSubstitutionBind equivalent ctx subst name node = some extended) :
    ∃ more, extended = subst ++ more ∧ ∀ entry ∈ more, entry.2 = node := by
  cases name with
  | none => cases bound
  | some name =>
    simp only [wrsSubstitutionBind] at bound
    -- A known name keeps its binding, and a new one is bound to the node.
    cases found : subst.lookup name with
    | some known =>
      simp only [found, Option.ite_none_right_eq_some, Option.some.injEq] at bound
      exact ⟨[], by simp [bound.2], by simp⟩
    | none =>
      simp only [found, Option.some.injEq] at bound
      exact ⟨[(name, node)], bound.symm, by simp⟩

mutual

/-- A match of any pattern binds nodes that the matched one reaches. -/
theorem wrsMatchPattern_binds {subst extended : WILSubstitution} :
    ∀ {pattern : WILPattern} {node : Option Nat},
      wrsMatchPattern equivalent ctx subst pattern node = some extended →
      ∃ more, extended = subst ++ more ∧ ∀ entry ∈ more, Dag.Reach ctx.succ node entry.2
  | .var name, node, found | .sequence name _, node, found => by
    rw [wrsMatchPattern] at found
    -- A name binds the node that it is matched against.
    obtain ⟨more, split, entries⟩ := bind_binds found
    exact ⟨more, split, fun entry member => entries entry member ▸ .refl⟩
  | .constInt _, node, found | .constFloat _, node, found | .constBool _, node, found
  | .predicate _, node, found => by
    -- Constants and predicates bind nothing.
    simp only [wrsMatchPattern, wrsMatchPattern.matchConstantAt, Option.ite_none_right_eq_some,
      Option.some.injEq] at found
    exact ⟨[], by simp [found.2], by simp⟩
  | .wildcard, node, found => by
    simp only [wrsMatchPattern, Option.some.injEq] at found
    exact ⟨[], by simp [found], by simp⟩
  -- A refinement binds as its base does.
  | .refinement base, node, found => by
    rw [wrsMatchPattern] at found
    exact wrsMatchPattern_binds found
  | .node kind inputs, node, found => by
    cases node with
    | none => simp [wrsMatchPattern] at found
    | some ref =>
      cases stored : ctx.graph[ref]? with
      | none => simp [wrsMatchPattern, deref, stored] at found
      -- An operator binds what its inputs bind, below the node.
      | some record =>
        simp only [wrsMatchPattern, deref, Option.bind_some, stored,
          Option.ite_none_right_eq_some] at found
        -- The inputs bind what they reach, which the node reaches through them.
        obtain ⟨more, split, entries⟩ := matchInputs_binds found.2
        refine ⟨more, split, fun entry member => ?_⟩
        obtain ⟨target, edge, path⟩ := entries entry member
        exact .head edge path
  | .null, node, found => by simp [wrsMatchPattern] at found

/-- Matching inputs binds nodes that one of them reaches. -/
theorem matchInputs_binds {subst extended : WILSubstitution} :
    ∀ {patterns : List WILPattern} {nodes : List (Option Nat)},
      matchInputs equivalent ctx subst patterns nodes = some extended →
      ∃ more, extended = subst ++ more ∧
        ∀ entry ∈ more, ∃ node ∈ nodes, Dag.Reach ctx.succ node entry.2
  | [], _, found => by
    simp only [matchInputs, Option.some.injEq] at found
    exact ⟨[], by simp [found], by simp⟩
  | _ :: _, [], found => by simp [matchInputs] at found
  | pattern :: patterns, node :: nodes, found => by
    simp only [matchInputs, Option.bind_eq_some_iff] at found
    obtain ⟨middle, first, rest⟩ := found
    -- The second list starts from what the first pattern bound.
    obtain ⟨more, split, entries⟩ := wrsMatchPattern_binds first
    obtain ⟨others, split', entries'⟩ := matchInputs_binds rest
    refine ⟨more ++ others, by rw [split', split, List.append_assoc], fun entry member => ?_⟩
    rcases List.mem_append.mp member with early | late
    · exact ⟨node, .head _, entries entry early⟩
    · obtain ⟨target, inside, path⟩ := entries' entry late
      exact ⟨target, .tail _ inside, path⟩

end

/-- What a match from no bindings binds at its root: the node itself under the root name, and
otherwise only nodes properly below it. -/
theorem wrsMatchPattern_root {extended : WILSubstitution} {node : Option Nat} :
    ∀ {pattern : WILPattern}, wrsMatchPattern equivalent ctx [] pattern node = some extended →
      (∀ name, pattern.rootName = some name → extended = [(name, node)]) ∧
        (pattern.rootName = none →
          ∀ entry ∈ extended, Relation.TransGen (Dag.Edge ctx.succ) node entry.2)
  | .var name, found | .sequence name _, found => by
    rw [wrsMatchPattern] at found
    cases name with
    | none => cases found
    | some name =>
      -- A name at the root binds the matched node itself.
      refine ⟨fun other named => ?_, nofun⟩
      obtain rfl : name = other := Option.some.inj named
      exact (Option.some.inj found).symm
  | .refinement base, found => by
    rw [wrsMatchPattern] at found
    have inner := wrsMatchPattern_root found
    exact inner
  | .constInt _, found | .constFloat _, found | .constBool _, found | .predicate _, found => by
    -- Constants bind nothing, so nothing has to be below the node.
    simp only [wrsMatchPattern, wrsMatchPattern.matchConstantAt, Option.ite_none_right_eq_some,
      Option.some.injEq] at found
    obtain ⟨-, rfl⟩ := found
    exact ⟨nofun, fun _ _ member => absurd member List.not_mem_nil⟩
  -- A wildcard binds nothing either.
  | .wildcard, found => by
    simp only [wrsMatchPattern, Option.some.injEq] at found
    subst found
    exact ⟨nofun, fun _ _ member => absurd member List.not_mem_nil⟩
  | .node kind inputs, found => by
    refine ⟨nofun, fun _ => ?_⟩
    cases node with
    | none => simp [wrsMatchPattern] at found
    | some ref =>
      cases stored : ctx.graph[ref]? with
      | none => simp [wrsMatchPattern, deref, stored] at found
      | some record =>
        simp only [wrsMatchPattern, deref, Option.bind_some, stored,
          Option.ite_none_right_eq_some] at found
        -- The inputs bind nodes below the matched one.
        obtain ⟨more, split, entries⟩ := matchInputs_binds found.2
        intro entry member
        rw [split, List.nil_append] at member
        obtain ⟨target, edge, path⟩ := entries entry member
        exact .head' edge path
  | .null, found => by simp [wrsMatchPattern] at found

/-- A pattern with a root name matches every node. -/
theorem wrsMatchPattern_rootName {node : Option Nat} :
    ∀ {pattern : WILPattern} {name : String}, pattern.rootName = some name →
      wrsMatchPattern equivalent ctx [] pattern node = some [(name, node)]
  | .var _, name, named | .sequence _ _, name, named => by
    -- A binding from none succeeds under any name.
    cases named
    rw [wrsMatchPattern]
    rfl
  | .refinement base, name, named => by
    rw [wrsMatchPattern]
    have inner : base.rootName = some name := named
    exact wrsMatchPattern_rootName inner

end Match

/-! Building right-hand sides of any patterns. -/

section Build

variable {subst : WILSubstitution} {base : Nat} {allowed : Option Nat → Prop}

/-- Nothing is reached from the null pointer. -/
theorem not_reach_none {ctx : WILContext} {ref : Nat} : ¬ Dag.Reach ctx.succ none (some ref) := by
  intro path
  rcases Relation.ReflTransGen.cases_head path with same | ⟨_, edge, -⟩
  · cases same
  · cases edge

/-- An operator pattern becomes one node over its first inputs, null where there are too few. -/
theorem wrsApplyPattern_operator (subst : WILSubstitution) {kind : WILNodeKind} {count : Nat}
    (arity : kind.arity = some count) (inputs : List WILPattern) (ctx : WILContext) :
    ∃ (type : WILType) (slots : List (Option Nat × WILEdgeKind)),
      slots.map (·.1) = (List.range count).map
        (fun index => ((wrsApplyPatterns subst inputs ctx).2[index]?).join) ∧
      wrsApplyPattern subst (.node kind inputs) ctx =
        ((wilBuild (wrsApplyPatterns subst inputs ctx).1 kind type none .zero slots).1,
          some (wrsApplyPatterns subst inputs ctx).1.graph.length) := by
  simp only [wrsApplyPattern]
  generalize wrsApplyPatterns subst inputs ctx = built
  obtain ⟨grown, nodes⟩ := built
  rw [arity]
  -- The arity decides which of the three builders is called.
  rcases WILNodeKind.arity_cases arity with rfl | rfl | ⟨rfl, rfl⟩
  · exact ⟨_, [((nodes[0]?).join, if kind = .returnNode then .control else .data)], rfl, rfl⟩
  · exact ⟨_, [((nodes[0]?).join, .data), ((nodes[1]?).join, .data)], rfl, rfl⟩
  · exact ⟨_, [((nodes[0]?).join, .data), ((nodes[1]?).join, .data), ((nodes[2]?).join, .data)],
      rfl, rfl⟩

/-- The null pointer stands where it is allowed. -/
theorem placed_none {ctx : WILContext} (null : allowed none) : Placed base allowed ctx none :=
  ⟨.inl null, nofun⟩

/-- An element of a list of placed pointers, or the null pointer past its end. -/
theorem Placed.getElem?_join {ctx : WILContext} (null : allowed none) {nodes : List (Option Nat)}
    (placed : ∀ pointer ∈ nodes, Placed base allowed ctx pointer) (index : Nat) :
    Placed base allowed ctx (nodes[index]?).join := by
  cases found : nodes[index]? with
  | none => exact placed_none null
  | some pointer => exact placed pointer (List.mem_of_getElem? found)

/-- The node of an operator pattern is one fresh node more over placed ones. -/
theorem wrsApplyPattern_operator_built (null : allowed none) {kind : WILNodeKind}
    {inputs : List WILPattern} {count : Nat} (arity : kind.arity = some count) {ctx : WILContext}
    (past : base ≤ ctx.graph.length) (grows : Built base allowed ctx
      (wrsApplyPatterns subst inputs ctx).1)
    (placed : ∀ pointer ∈ (wrsApplyPatterns subst inputs ctx).2,
      Placed base allowed (wrsApplyPatterns subst inputs ctx).1 pointer) :
    Built base allowed (wrsApplyPatterns subst inputs ctx).1
        (wrsApplyPattern subst (.node kind inputs) ctx).1 ∧
      Placed base allowed (wrsApplyPattern subst (.node kind inputs) ctx).1
        (wrsApplyPattern subst (.node kind inputs) ctx).2 := by
  -- The inputs of the new node are those that were placed, or null.
  obtain ⟨type, slots, sources, result⟩ := wrsApplyPattern_operator subst arity inputs ctx
  rw [result]
  have origin : ∀ target ∈ slots.map (·.1),
      Placed base allowed (wrsApplyPatterns subst inputs ctx).1 target := by
    intro target member
    rw [sources] at member
    obtain ⟨index, -, rfl⟩ := List.mem_map.mp member
    exact .getElem?_join null placed index
  -- The sources are placed, so the build stays over the base.
  refine ⟨.build grows.consistent kind type none .zero slots
    (fun target member => (origin _ member).2 target rfl)
    (fun target member => (origin _ member).1) (fun leaf => by simp [arity] at leaf),
    .inr ⟨_, rfl, Nat.le_trans past grows.longer⟩, ?_⟩
  intro ref equal
  cases equal
  rw [length_build]
  exact Nat.lt_succ_self _

mutual

/-- Building any pattern only adds fresh nodes over the bound ones and the null pointer. -/
theorem wrsApplyPattern_grows (null : allowed none) : ∀ {pattern : WILPattern} {ctx : WILContext},
    DefUse ctx → base ≤ ctx.graph.length →
    (∀ name ∈ pattern.vars, allowed (wilSubstitutionLookup subst (some name))) →
    (∀ ref, allowed (some ref) → ref < ctx.graph.length) →
    Built base allowed ctx (wrsApplyPattern subst pattern ctx).1 ∧
      Placed base allowed (wrsApplyPattern subst pattern ctx).1
        (wrsApplyPattern subst pattern ctx).2
  | .var (some name), ctx, consistent, _, bound, inside
  | .sequence (some name) _, ctx, consistent, _, bound, inside => by
    -- A name stands for what it is bound to, and builds nothing.
    rw [wrsApplyPattern]
    refine ⟨.refl consistent, .inl (bound name (by simp [WILPattern.vars])), fun ref equal => ?_⟩
    refine inside ref ?_
    rw [← equal]
    exact bound name (by simp [WILPattern.vars])
  | .var none, ctx, consistent, _, _, _ | .sequence none _, ctx, consistent, _, _, _
  | .null, ctx, consistent, _, _, _ | .wildcard, ctx, consistent, _, _, _
  | .predicate _, ctx, consistent, _, _, _ => by
    -- Patterns that stand for no node give the null pointer.
    rw [wrsApplyPattern]
    exact ⟨.refl consistent, placed_none null⟩
  | .constInt value, ctx, consistent, past, _, _ =>
    wrsApplyPattern_const consistent past .constInt .i32 (.int value)
  | .constFloat value, ctx, consistent, past, _, _ =>
    wrsApplyPattern_const consistent past .constFloat .f64 (.float value)
  | .constBool value, ctx, consistent, past, _, _ =>
    wrsApplyPattern_const consistent past .constBool .i1 (.bool value)
  | .refinement base, ctx, consistent, past, bound, inside => by
    rw [wrsApplyPattern]
    -- A refinement is built as its base.
    have inner : ∀ name ∈ base.vars, allowed (wilSubstitutionLookup subst (some name)) := bound
    exact wrsApplyPattern_grows null consistent past inner inside
  | .node kind inputs, ctx, consistent, past, bound, inside => by
    -- The inputs are built first.
    obtain ⟨built, placed⟩ := wrsApplyPatterns_grows null consistent past bound inside
    cases arity : kind.arity with
    | none =>
      -- Kinds without operands have no builder, and give the null pointer.
      simp only [wrsApplyPattern, arity]
      exact ⟨built, placed_none null⟩
    | some count =>
      have parent := wrsApplyPattern_operator_built null arity past built placed
      exact ⟨built.trans parent.1, parent.2⟩

/-- Building any list of patterns only adds fresh nodes over the bound ones and the null pointer. -/
theorem wrsApplyPatterns_grows (null : allowed none) :
    ∀ {patterns : List WILPattern} {ctx : WILContext}, DefUse ctx → base ≤ ctx.graph.length →
    (∀ name ∈ WILPattern.varsList patterns, allowed (wilSubstitutionLookup subst (some name))) →
    (∀ ref, allowed (some ref) → ref < ctx.graph.length) →
    Built base allowed ctx (wrsApplyPatterns subst patterns ctx).1 ∧
      ∀ pointer ∈ (wrsApplyPatterns subst patterns ctx).2,
        Placed base allowed (wrsApplyPatterns subst patterns ctx).1 pointer
  | [], ctx, consistent, _, _, _ => ⟨.refl consistent, by simp [wrsApplyPatterns]⟩
  | pattern :: patterns, ctx, consistent, past, bound, inside => by
    -- The first pattern only adds nodes, so what the others may use is still inside.
    obtain ⟨first, placed⟩ := wrsApplyPattern_grows null consistent past
      (fun name member => bound name (List.mem_append_left _ member)) inside
    obtain ⟨rest, others⟩ := wrsApplyPatterns_grows null first.consistent
      (Nat.le_trans past first.longer)
      (fun name member => bound name (List.mem_append_right _ member))
      (fun ref member => Nat.lt_of_lt_of_le (inside ref member) first.longer)
    refine ⟨first.trans rest, fun pointer member => ?_⟩
    rcases List.mem_cons.mp member with rfl | later
    · exact ⟨placed.1, fun ref equal => Nat.lt_of_lt_of_le (placed.2 ref equal) rest.longer⟩
    · exact others pointer later

end

/-- Growth leaves nothing new below a pointer of the old graph. -/
theorem Built.avoids {before after : WILContext} (built : Built base allowed before after)
    (closed : before.Closed) {pointer : Option Nat} {old : Nat}
    (inside : ∀ ref, pointer = some ref → ref < before.graph.length)
    (avoids : ¬ Dag.Reach before.succ pointer (some old)) :
    ¬ Dag.Reach after.succ pointer (some old) := by
  cases pointer with
  | none => exact not_reach_none
  | some ref => exact fun path => avoids (built.reach_old closed (inside ref rfl) path).1

/-- Growth keeps all paths. -/
theorem Built.reach {before after : WILContext} (built : Built base allowed before after)
    {source sink : Option Nat} (path : Dag.Reach before.succ source sink) :
    Dag.Reach after.succ source sink := by
  refine Relation.ReflTransGen.mono (fun user target edge => ?_) _ _ path
  cases user with
  | none => cases edge
  | some user =>
    -- An old node keeps its targets.
    show target ∈ after.targets user
    rw [built.targets user (inside_of_target edge)]
    exact edge

/-- What the node of an operator pattern points at. -/
theorem edge_wrsApplyPattern_operator {kind : WILNodeKind} {inputs : List WILPattern} {count : Nat}
    (arity : kind.arity = some count) (ctx : WILContext) (target : Option Nat) :
    Dag.Edge (wrsApplyPattern subst (.node kind inputs) ctx).1.succ
        (wrsApplyPattern subst (.node kind inputs) ctx).2 target ↔
      ∃ index < count, ((wrsApplyPatterns subst inputs ctx).2[index]?).join = target := by
  -- The operator is a fresh node whose inputs are those its builder takes.
  obtain ⟨type, slots, sources, result⟩ := wrsApplyPattern_operator subst arity inputs ctx
  rw [result]
  show target ∈ (wilBuild _ kind type none .zero slots).1.targets _ ↔ _
  rw [targets_build, if_pos rfl, sources]
  simp

section Below

-- The node that is reached or avoided is an old one.
variable {node : Nat}

/-- A fresh constant leads nowhere. -/
theorem avoids_constant {ctx : WILContext} (old : node < ctx.graph.length) (kind : WILNodeKind)
    (type : WILType) (payload : WILNodePayload) :
    ¬ Dag.Reach (wilBuild ctx kind type none payload []).1.succ (some ctx.graph.length)
      (some node) := by
  intro path
  rcases Relation.ReflTransGen.cases_head path with same | ⟨target, edge, -⟩
  -- The fresh constant is behind all old nodes.
  · cases same
    omega
  -- It has no target to go on with.
  · have empty := targets_build ctx kind type none payload [] ctx.graph.length
    rw [if_pos rfl] at empty
    have member : target ∈ (wilBuild ctx kind type none payload []).1.targets
      ctx.graph.length := edge
    rw [empty] at member
    cases member

mutual

/-- A built pointer avoids a node that all pointers it reads avoid. -/
theorem wrsApplyPattern_avoids (null : allowed none) :
    ∀ {pattern : WILPattern} {ctx : WILContext}, DefUse ctx → base ≤ ctx.graph.length →
    (∀ name, allowed (wilSubstitutionLookup subst (some name))) →
    (∀ ref, allowed (some ref) → ref < ctx.graph.length) → node < ctx.graph.length →
    (∀ name ∈ pattern.reads,
      ¬ Dag.Reach ctx.succ (wilSubstitutionLookup subst (some name)) (some node)) →
    ¬ Dag.Reach (wrsApplyPattern subst pattern ctx).1.succ (wrsApplyPattern subst pattern ctx).2
      (some node)
  | .var (some name), ctx, _, _, _, _, _, avoid
  | .sequence (some name) _, ctx, _, _, _, _, _, avoid => by
    rw [wrsApplyPattern]
    exact avoid name (by simp [WILPattern.reads])
  | .var none, _, _, _, _, _, _, _ | .sequence none _, _, _, _, _, _, _, _
  | .null, _, _, _, _, _, _, _ | .wildcard, _, _, _, _, _, _, _
  | .predicate _, _, _, _, _, _, _, _ => by
    rw [wrsApplyPattern]
    exact not_reach_none
  -- A constant has no edges, or is an old node that does not reach it.
  | .constInt value, ctx, _, _, _, _, old, _ =>
    avoids_constant old .constInt .i32 (.int value)
  | .constFloat value, ctx, _, _, _, _, old, _ =>
    avoids_constant old .constFloat .f64 (.float value)
  | .constBool value, ctx, _, _, _, _, old, _ =>
    avoids_constant old .constBool .i1 (.bool value)
  -- A refinement reads what its base reads.
  | .refinement base, ctx, consistent, past, bound, inside, old, avoid => by
    rw [wrsApplyPattern]
    have inner : ∀ name ∈ base.reads,
        ¬ Dag.Reach ctx.succ (wilSubstitutionLookup subst (some name)) (some node) := avoid
    exact wrsApplyPattern_avoids null consistent past bound inside old inner
  | .node kind inputs, ctx, consistent, past, bound, inside, old, avoid => by
    cases arity : kind.arity with
    | none =>
      simp only [wrsApplyPattern, arity]
      exact not_reach_none
    | some count =>
      have built := wrsApplyPatterns_grows null consistent past
        (fun name (_ : name ∈ WILPattern.varsList inputs) => bound name) inside
      obtain ⟨grows, placed⟩ := built
      obtain ⟨parent, -⟩ := wrsApplyPattern_operator_built null arity past grows placed
      have inner : ∀ name ∈ WILPattern.readsFirst inputs count,
          ¬ Dag.Reach ctx.succ (wilSubstitutionLookup subst (some name)) (some node) := by
        simpa only [WILPattern.reads, arity] using avoid
      have inputsAvoid := wrsApplyPatterns_avoids null consistent past bound inside old inner
      -- A path to the node would go through one of the inputs.
      intro path
      rcases Relation.ReflTransGen.cases_head path with same | ⟨target, edge, rest⟩
      · -- The node is fresh, and the avoided one is not.
        obtain ⟨_, _, -, result⟩ := wrsApplyPattern_operator subst arity inputs ctx
        rw [result] at same
        have equal := Option.some.inj same
        have longer := grows.longer
        omega
      · obtain ⟨index, inRange, rfl⟩ := (edge_wrsApplyPattern_operator arity ctx target).mp edge
        exact parent.avoids grows.consistent.closed
          (Placed.getElem?_join null placed index).2 (inputsAvoid index inRange) rest

/-- Built pointers avoid a node that all pointers they read avoid. -/
theorem wrsApplyPatterns_avoids (null : allowed none) :
    ∀ {patterns : List WILPattern} {ctx : WILContext} {count : Nat}, DefUse ctx →
    base ≤ ctx.graph.length → (∀ name, allowed (wilSubstitutionLookup subst (some name))) →
    (∀ ref, allowed (some ref) → ref < ctx.graph.length) → node < ctx.graph.length →
    (∀ name ∈ WILPattern.readsFirst patterns count,
      ¬ Dag.Reach ctx.succ (wilSubstitutionLookup subst (some name)) (some node)) →
    ∀ index < count, ¬ Dag.Reach (wrsApplyPatterns subst patterns ctx).1.succ
      ((wrsApplyPatterns subst patterns ctx).2[index]?).join (some node)
  | [], _, _, _, _, _, _, _, _, _, _ => by
    simpa [wrsApplyPatterns] using not_reach_none
  | pattern :: patterns, ctx, 0, _, _, _, _, _, _, index, before => by omega
  | pattern :: patterns, ctx, count + 1, consistent, past, bound, inside, old, avoid, index,
      before => by
    -- The tail is built over what the head has left.
    obtain ⟨first, placed⟩ := wrsApplyPattern_grows null consistent past
      (fun name _ => bound name) inside
    have tailInside : ∀ ref, allowed (some ref) →
        ref < (wrsApplyPattern subst pattern ctx).1.graph.length :=
      fun ref member => Nat.lt_of_lt_of_le (inside ref member) first.longer
    obtain ⟨rest, -⟩ := wrsApplyPatterns_grows null first.consistent
      (Nat.le_trans past first.longer) (fun name _ => bound name) tailInside
    rw [wrsApplyPatterns]
    cases index with
    | zero =>
      -- The head does not reach the node, and what is built later adds no path.
      have head := wrsApplyPattern_avoids null consistent past bound inside old
        fun name member => avoid name (List.mem_append_left _ member)
      exact rest.avoids first.consistent.closed placed.2 head
    | succ index =>
      -- What the bound nodes avoid they avoid in the grown graph too.
      have later : ∀ name ∈ WILPattern.readsFirst patterns count,
          ¬ Dag.Reach (wrsApplyPattern subst pattern ctx).1.succ
            (wilSubstitutionLookup subst (some name)) (some node) := fun name member =>
        first.avoids consistent.closed (fun ref equal => inside ref (equal ▸ bound name))
          (avoid name (List.mem_append_right _ member))
      exact wrsApplyPatterns_avoids null first.consistent (Nat.le_trans past first.longer) bound
        tailInside (Nat.lt_of_lt_of_le old first.longer) later index (by omega)

end

end Below

mutual

/-- A built pointer leads to the node of every name it reads. -/
theorem wrsApplyPattern_reads (null : allowed none) :
    ∀ {pattern : WILPattern} {ctx : WILContext}, DefUse ctx → base ≤ ctx.graph.length →
    (∀ name, allowed (wilSubstitutionLookup subst (some name))) →
    (∀ ref, allowed (some ref) → ref < ctx.graph.length) → ∀ name ∈ pattern.reads,
    Dag.Reach (wrsApplyPattern subst pattern ctx).1.succ (wrsApplyPattern subst pattern ctx).2
      (wilSubstitutionLookup subst (some name))
  | .var (some own), ctx, _, _, _, _, name, member
  | .sequence (some own) _, ctx, _, _, _, _, name, member => by
    -- The one name that is read is the pointer itself.
    rw [WILPattern.reads, List.mem_singleton] at member
    rw [wrsApplyPattern, member]
  | .refinement base, ctx, consistent, past, bound, inside, name, member => by
    rw [wrsApplyPattern]
    have inner : name ∈ base.reads := member
    exact wrsApplyPattern_reads null consistent past bound inside name inner
  | .node kind inputs, ctx, consistent, past, bound, inside, name, member => by
    cases arity : kind.arity with
    | none => simp [WILPattern.reads, arity] at member
    | some count =>
      -- A name that is read is read by one of the operands.
      have inner : name ∈ WILPattern.readsFirst inputs count := by
        simpa only [WILPattern.reads, arity] using member
      obtain ⟨index, inRange, path⟩ :=
        wrsApplyPatterns_reads null consistent past bound inside name inner
      have built := wrsApplyPatterns_grows null consistent past
        (fun name (_ : name ∈ WILPattern.varsList inputs) => bound name) inside
      obtain ⟨parent, -⟩ := wrsApplyPattern_operator_built null arity past built.1 built.2
      -- The fresh node points at that operand, and the paths stay as the node is built.
      exact .head ((edge_wrsApplyPattern_operator arity ctx _).mpr ⟨index, inRange, rfl⟩)
        (parent.reach path)
  | .var none, _, _, _, _, _, name, member | .sequence none _, _, _, _, _, _, name, member
  | .null, _, _, _, _, _, name, member | .wildcard, _, _, _, _, _, name, member
  | .predicate _, _, _, _, _, _, name, member | .constInt _, _, _, _, _, _, name, member
  | .constFloat _, _, _, _, _, _, name, member
  | .constBool _, _, _, _, _, _, name, member => by simp [WILPattern.reads] at member

/-- Some built pointer leads to the node of every name that is read. -/
theorem wrsApplyPatterns_reads (null : allowed none) :
    ∀ {patterns : List WILPattern} {ctx : WILContext} {count : Nat}, DefUse ctx →
    base ≤ ctx.graph.length → (∀ name, allowed (wilSubstitutionLookup subst (some name))) →
    (∀ ref, allowed (some ref) → ref < ctx.graph.length) →
    ∀ name ∈ WILPattern.readsFirst patterns count, ∃ index < count,
      Dag.Reach (wrsApplyPatterns subst patterns ctx).1.succ
        ((wrsApplyPatterns subst patterns ctx).2[index]?).join
        (wilSubstitutionLookup subst (some name))
  | [], _, _, _, _, _, _, name, member => by simp [WILPattern.readsFirst] at member
  | _ :: _, _, 0, _, _, _, _, name, member => by simp [WILPattern.readsFirst] at member
  | pattern :: patterns, ctx, count + 1, consistent, past, bound, inside, name, member => by
    obtain ⟨first, placed⟩ := wrsApplyPattern_grows null consistent past
      (fun name (_ : name ∈ pattern.vars) => bound name) inside
    have tailInside : ∀ ref, allowed (some ref) →
        ref < (wrsApplyPattern subst pattern ctx).1.graph.length :=
      fun ref member => Nat.lt_of_lt_of_le (inside ref member) first.longer
    have tailPast := Nat.le_trans past first.longer
    rw [wrsApplyPatterns]
    rcases List.mem_append.mp member with early | late
    -- Paths below the first pointer stay as the others are built.
    · have rest := wrsApplyPatterns_grows null first.consistent tailPast
        (fun name (_ : name ∈ WILPattern.varsList patterns) => bound name) tailInside
      exact ⟨0, Nat.succ_pos count,
        rest.1.reach (wrsApplyPattern_reads null consistent past bound inside name early)⟩
    · obtain ⟨index, inRange, path⟩ :=
        wrsApplyPatterns_reads null first.consistent tailPast bound tailInside name late
      exact ⟨index + 1, Nat.succ_lt_succ inRange, path⟩

end

/-- An operator that is built over a name is a fresh node above the node of that name. -/
theorem wrsApplyPattern_underOperator (null : allowed none) :
    ∀ {pattern : WILPattern} {ctx : WILContext}, DefUse ctx → base ≤ ctx.graph.length →
    (∀ name, allowed (wilSubstitutionLookup subst (some name))) →
    (∀ ref, allowed (some ref) → ref < ctx.graph.length) → ∀ name ∈ pattern.underOperator,
    ∃ fresh, (wrsApplyPattern subst pattern ctx).2 = some fresh ∧ ctx.graph.length ≤ fresh ∧
      Dag.Reach (wrsApplyPattern subst pattern ctx).1.succ (some fresh)
        (wilSubstitutionLookup subst (some name))
  | .refinement base, ctx, consistent, past, bound, inside, name, member => by
    rw [wrsApplyPattern]
    have inner : name ∈ base.underOperator := member
    exact wrsApplyPattern_underOperator null consistent past bound inside name inner
  | .node kind inputs, ctx, consistent, past, bound, inside, name, member => by
    -- What is read is below the fresh node, which is the result.
    rw [WILPattern.underOperator] at member
    have path := wrsApplyPattern_reads null consistent past bound inside name member
    cases arity : kind.arity with
    | none => simp [WILPattern.reads, arity] at member
    | some count =>
      have built := wrsApplyPatterns_grows null consistent past
        (fun name (_ : name ∈ WILPattern.varsList inputs) => bound name) inside
      obtain ⟨_, _, -, result⟩ := wrsApplyPattern_operator subst arity inputs ctx
      rw [result] at path ⊢
      -- The result is fresh, and reaches what was read.
      exact ⟨_, rfl, built.1.longer, path⟩
  | .var _, _, _, _, _, _, name, member | .sequence _ _, _, _, _, _, _, name, member
  | .null, _, _, _, _, _, name, member | .wildcard, _, _, _, _, _, name, member
  | .predicate _, _, _, _, _, _, name, member | .constInt _, _, _, _, _, _, name, member
  | .constFloat _, _, _, _, _, _, name, member
  | .constBool _, _, _, _, _, _, name, member => by simp [WILPattern.underOperator] at member

/-- A right-hand side that is not an operator over a name is that name's node or avoids it. -/
theorem WILPattern.mem_reads_iff {name : String} : ∀ {pattern : WILPattern},
    name ∈ pattern.reads ↔ pattern.rootName = some name ∨ name ∈ pattern.underOperator
  -- A name is read at the root only.
  | .var (some own) | .sequence (some own) _ => by simp [reads, rootName, underOperator, eq_comm]
  | .refinement base => by
    have inner : name ∈ base.reads ↔ base.rootName = some name ∨ name ∈ base.underOperator :=
      mem_reads_iff
    simpa only [reads, rootName, underOperator] using inner
  | .node kind inputs => by simp [rootName, underOperator]
  | .var none | .sequence none _ | .null | .wildcard | .predicate _ | .constInt _ | .constFloat _
  | .constBool _ => by simp [reads, rootName, underOperator]

end Build

/-! What rewriting below a pointer leaves alone. -/

/-- A graph without cycles in which only slots below a pointer were redirected, and old nodes reach
no more old nodes than before. -/
structure Keeps (pointer : Option Nat) (before after : WILContext) : Prop where
  consistent : DefUse after
  grounded : Dag.Grounded after.succ
  longer : before.graph.length ≤ after.graph.length
  slots : ∀ old < before.graph.length, (after.targets old).length = (before.targets old).length
  reach : ∀ source < before.graph.length, ∀ sink < before.graph.length,
    Dag.Reach after.succ (some source) (some sink) →
    Dag.Reach before.succ (some source) (some sink)
  frame : ∀ user < before.graph.length, ∀ (index target : Nat),
    (before.targets user)[index]? = some (some target) →
    ¬ Dag.Reach before.succ pointer (some target) →
    (after.targets user)[index]? = some (some target)

namespace Keeps

variable {pointer : Option Nat} {before middle after : WILContext}

/-- A graph without cycles keeps itself. -/
theorem refl (consistent : DefUse before) (grounded : Dag.Grounded before.succ) :
    Keeps pointer before before where
  consistent := consistent
  grounded := grounded
  longer := Nat.le_refl _
  slots _ _ := rfl
  reach _ _ _ _ path := path
  frame _ _ _ _ found _ := found

/-- Redirecting slots below one pointer twice is redirecting slots below it. -/
theorem trans (closed : before.Closed) (inside : ∀ ref, pointer = some ref →
      ref < before.graph.length) (left : Keeps pointer before middle)
    (right : Keeps pointer middle after) : Keeps pointer before after where
  consistent := right.consistent
  grounded := right.grounded
  longer := Nat.le_trans left.longer right.longer
  slots old old_inside :=
    (right.slots old (Nat.lt_of_lt_of_le old_inside left.longer)).trans (left.slots old old_inside)
  reach source sourceOld sink sinkOld path :=
    left.reach source sourceOld sink sinkOld
      (right.reach source (Nat.lt_of_lt_of_le sourceOld left.longer) sink
        (Nat.lt_of_lt_of_le sinkOld left.longer) path)
  frame user userOld index target found unreached := by
    -- A target that the pointer does not reach is still not reached afterwards.
    have targetOld := closed user target (List.mem_of_getElem? found)
    refine right.frame user (Nat.lt_of_lt_of_le userOld left.longer) index target
      (left.frame user userOld index target found unreached) fun path => ?_
    cases pointer with
    | none => exact not_reach_none path
    | some ref => exact unreached (left.reach ref (inside ref rfl) target targetOld path)

/-- What is below an input is below its node. -/
theorem of_edge {node : Nat} (keeps : Keeps pointer before after)
    (edge : Dag.Edge before.succ (some node) pointer) : Keeps (some node) before after where
  consistent := keeps.consistent
  grounded := keeps.grounded
  longer := keeps.longer
  slots := keeps.slots
  reach := keeps.reach
  frame user userOld index target found unreached :=
    keeps.frame user userOld index target found fun path => unreached (.head edge path)

/-- Growth redirects nothing. -/
theorem of_built {allowed : Option Nat → Prop}
    (built : Built before.graph.length allowed before after) (consistent : DefUse before)
    (grounded : Dag.Grounded before.succ)
    (allowedOld : ∀ ref, allowed (some ref) → ref < before.graph.length) :
    Keeps pointer before after where
  consistent := built.consistent
  grounded := built.grounded consistent.closed allowedOld grounded
  longer := built.longer
  -- Old nodes have the targets they had.
  slots old old_inside := by rw [built.targets old old_inside]
  reach source sourceOld sink _ path := (built.reach_old consistent.closed sourceOld path).1
  frame user userOld index target found _ := by rw [built.targets user userOld, found]

end Keeps

section Redirect

variable {allowed : Option Nat → Prop} {before middle : WILContext} {node replacement : Nat}

/-- Redirecting the uses of a node to a replacement that was built from nodes below it and does not
lead back to it. -/
theorem Built.keeps_replaceAllUses (built : Built before.graph.length allowed before middle)
    (consistent : DefUse before) (grounded : Dag.Grounded before.succ)
    (below : ∀ ref, allowed (some ref) → Dag.Reach before.succ (some node) (some ref))
    (allowedOld : ∀ ref, allowed (some ref) → ref < before.graph.length)
    (placed : Placed before.graph.length allowed middle (some replacement))
    (apart : ¬ Dag.Reach middle.succ (some replacement) (some node)) :
    let after := wilNodeReplaceAllUses middle (some node) (some replacement)
    Keeps (some node) before after ∧
      ∀ sink < before.graph.length, Dag.Reach after.succ (some replacement) (some sink) →
        Dag.Reach before.succ (some node) (some sink) := by
  intro after
  have closed := consistent.closed
  have same : SameNodes middle after := sameNodes_replaceAllUses middle _ _
  have edges : ∀ source sink, Dag.Edge after.succ source sink →
      Dag.Edge middle.succ source sink ∨
        sink = some replacement ∧ Dag.Edge middle.succ source (some node) :=
    fun _ _ edge => built.consistent.edge_replaceAllUses edge
  have middleGrounded := built.grounded closed allowedOld grounded
  -- The replacement reaches old nodes by way of its bindings, which lie below the node.
  have toOld : ∀ sink < before.graph.length,
      Dag.Reach middle.succ (some replacement) (some sink) →
      Dag.Reach before.succ (some node) (some sink) := by
    intro sink sinkOld path
    obtain ⟨binding, bound, rest⟩ := built.reach_fresh closed allowedOld placed.1 sinkOld path
    cases binding with
    | none => exact absurd rest not_reach_none
    | some ref => exact (below ref bound).trans rest
  have afterTargets : ∀ user, after.targets user =
      (middle.targets user).map (redirect node replacement) :=
    built.consistent.targets_replaceAllUses node replacement
  -- Redirecting leaves a grounded graph, in which old slots keep their number.
  refine ⟨⟨built.consistent.replaceAllUses _ _ ?_, middleGrounded.redirected edges apart, ?_, ?_,
    ?_, ?_⟩, ?_⟩
  · intro target equal
    cases equal
    exact placed.2 _ rfl
  · rw [same.length]
    exact built.longer
  · intro old oldInside
    rw [afterTargets, List.length_map, built.targets old oldInside]
  · intro source sourceOld sink sinkOld path
    -- A path through the redirected edge went through the node itself before.
    rcases Dag.reach_of_redirected edges path with kept | ⟨first, last⟩
    · exact (built.reach_old closed sourceOld kept).1
    · have toNode := (built.reach_old closed sourceOld first.to_reflTransGen).1
      exact toNode.trans (toOld sink sinkOld last)
  -- A slot whose target does not reach the node is not redirected.
  · intro user userOld index target found unreached
    have other : target ≠ node := by
      rintro rfl
      exact unreached .refl
    rw [afterTargets, built.targets user userOld, List.getElem?_map, found]
    simp [redirect, other]
  -- The replacement does not use the redirected edge, which would lead back to it.
  · intro sink sinkOld path
    rcases Dag.reach_of_redirected edges path with kept | ⟨first, -⟩
    · exact toOld sink sinkOld kept
    · exact absurd first.to_reflTransGen apart

end Redirect

end Wirble
