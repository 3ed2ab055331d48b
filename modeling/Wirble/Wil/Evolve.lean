import Wirble.Wil.Rewire

/-! Graphs that grow by fresh nodes, and graphs whose old nodes keep their values. -/

namespace Wirble

open WILContext

/-! What a builder adds. -/

/-- Adding inputs appends them to the targets of that node only. -/
theorem targets_addInputs (node : Nat) (inputs : List (Option Nat × WILEdgeKind))
    (ctx : WILContext) (inside : node < ctx.graph.length) (other : Nat) :
    (addInputs node inputs ctx).targets other =
      if node = other then ctx.targets other ++ inputs.map (·.1) else ctx.targets other := by
  induction inputs generalizing ctx with
  | nil => simp [addInputs]
  | cons input rest next =>
    obtain ⟨target, edgeKind⟩ := input
    -- Adding the first input keeps the node inside the graph.
    have length := (sameNodes_addInput ctx node target edgeKind).length
    rw [addInputs, next _ (by omega), targets_addInput]
    by_cases same : node = other
    · subst same
      simp [inside]
    · simp [same]

/-- The node a builder returns has the given inputs, and old nodes keep theirs. -/
theorem targets_build (ctx : WILContext) (kind : WILNodeKind) (type : WILType)
    (name : Option String) (payload : WILNodePayload)
    (inputs : List (Option Nat × WILEdgeKind)) (other : Nat) :
    (wilBuild ctx kind type name payload inputs).1.targets other =
      if other = ctx.graph.length then inputs.map (·.1) else ctx.targets other := by
  have inside : ctx.graph.length < (wilNodeCreate ctx kind type name payload).1.graph.length := by
    rw [length_create]
    omega
  -- The fresh node starts without inputs, and then has those that were added.
  have added := targets_addInputs ctx.graph.length inputs
    (wilNodeCreate ctx kind type name payload).1 inside other
  rw [targets_create] at added
  rw [show (wilBuild ctx kind type name payload inputs).1 =
    addInputs ctx.graph.length inputs (wilNodeCreate ctx kind type name payload).1 from rfl, added]
  by_cases fresh : other = ctx.graph.length
  · subst fresh
    simp [targets_outside]
  · have old : ¬ ctx.graph.length = other := fun equal => fresh equal.symm
    simp [fresh, old]

/-- The records of a built graph: one new one, and the old ones up to slots and uses. -/
theorem core_build (ctx : WILContext) (kind : WILNodeKind) (type : WILType)
    (name : Option String) (payload : WILNodePayload)
    (inputs : List (Option Nat × WILEdgeKind)) (other : Nat) :
    ((wilBuild ctx kind type name payload inputs).1.graph[other]?).map WILNode.core =
      if other = ctx.graph.length then
        some { context := ctx.self, id := ctx.graph.length + 1, kind, type, name, payload,
               category := wilNodeKindCategory kind, inputs := [], uses := [], removed := false }
      else (ctx.graph[other]?).map WILNode.core := by
  -- Adding inputs keeps records, so they are those of the created graph.
  have kept := (sameNodes_addInputs ctx.graph.length inputs
    (wilNodeCreate ctx kind type name payload).1).core other
  rw [show (wilBuild ctx kind type name payload inputs).1 =
    addInputs ctx.graph.length inputs (wilNodeCreate ctx kind type name payload).1 from rfl, kept,
    graph_create_get]
  split
  · rfl
  · rfl

/-- Building appends one node. -/
theorem length_build (ctx : WILContext) (kind : WILNodeKind) (type : WILType)
    (name : Option String) (payload : WILNodePayload)
    (inputs : List (Option Nat × WILEdgeKind)) :
    (wilBuild ctx kind type name payload inputs).1.graph.length = ctx.graph.length + 1 := by
  -- Adding inputs creates no nodes besides the fresh one.
  have kept := (sameNodes_addInputs ctx.graph.length inputs
    (wilNodeCreate ctx kind type name payload).1).length
  rw [length_create] at kept
  exact kept

/-! Growth by fresh nodes. -/

/-- Fresh nodes point at earlier fresh nodes, counted from a base, or at allowed old pointers. -/
structure Built (base : Nat) (allowed : Option Nat → Prop) (before after : WILContext) :
    Prop where
  consistent : DefUse after
  longer : before.graph.length ≤ after.graph.length
  core : ∀ old < before.graph.length,
    (after.graph[old]?).map WILNode.core = (before.graph[old]?).map WILNode.core
  targets : ∀ old < before.graph.length, after.targets old = before.targets old
  fresh : ∀ new, before.graph.length ≤ new → ∀ target ∈ after.targets new,
    allowed target ∨ ∃ earlier, target = some earlier ∧ base ≤ earlier ∧ earlier < new
  /-- Only operators among the fresh nodes have inputs. -/
  leaves : ∀ new record, before.graph.length ≤ new → after.graph[new]? = some record →
    record.kind.arity = none → after.targets new = []

/-- A graph is built from itself by no step. -/
theorem Built.refl {base : Nat} {allowed : Option Nat → Prop} {ctx : WILContext}
    (consistent : DefUse ctx) : Built base allowed ctx ctx where
  consistent := consistent
  longer := Nat.le_refl _
  core _ _ := rfl
  targets _ _ := rfl
  -- No node lies past the end, so no edge starts there.
  fresh new past target member := by
    simp [targets_outside past] at member
  leaves new record past found _ := targets_outside past

/-- Building goes on where it stopped. -/
theorem Built.trans {base : Nat} {allowed : Option Nat → Prop} {first second third : WILContext}
    (left : Built base allowed first second) (right : Built base allowed second third) :
    Built base allowed first third where
  consistent := right.consistent
  longer := Nat.le_trans left.longer right.longer
  core old inside :=
    (right.core old (Nat.lt_of_lt_of_le inside left.longer)).trans (left.core old inside)
  targets old inside :=
    (right.targets old (Nat.lt_of_lt_of_le inside left.longer)).trans (left.targets old inside)
  fresh new past target member := by
    -- A fresh node is from the first or from the second stretch.
    rcases Nat.lt_or_ge new second.graph.length with early | late
    · rw [right.targets new early] at member
      exact left.fresh new past target member
    · exact right.fresh new late target member
  leaves new record past found leaf := by
    -- A leaf is built in the first stretch, which the second one keeps, or in the second.
    rcases Nat.lt_or_ge new second.graph.length with early | late
    · have kept := right.core new early
      rw [found] at kept
      cases stored : second.graph[new]? with
      | none => simp [stored] at kept
      | some earlier =>
        have cores : record.core = earlier.core := by simpa [stored] using kept
        have kinds : record.core.kind = earlier.core.kind := congrArg WILNode.kind cores
        simp only [WILNode.core] at kinds
        rw [right.targets new early]
        exact left.leaves new earlier past stored (kinds ▸ leaf)
    · exact right.leaves new record late found leaf

/-- One builder call adds one fresh node. -/
theorem Built.build {base : Nat} {allowed : Option Nat → Prop} {ctx : WILContext}
    (consistent : DefUse ctx) (kind : WILNodeKind) (type : WILType) (name : Option String)
    (payload : WILNodePayload) (inputs : List (Option Nat × WILEdgeKind))
    (inside : ∀ target, some target ∈ inputs.map (·.1) → target < ctx.graph.length)
    (origin : ∀ target ∈ inputs.map (·.1),
      allowed target ∨ ∃ earlier, target = some earlier ∧ base ≤ earlier)
    (shape : kind.arity = none → inputs = []) :
    Built base allowed ctx (wilBuild ctx kind type name payload inputs).1 where
  consistent := consistent.build inside
  longer := by
    rw [length_build]
    omega
  core old old_inside := by
    rw [core_build, if_neg (by omega)]
  targets old old_inside := by
    rw [targets_build, if_neg (by omega)]
  fresh new past target member := by
    -- Edges of the fresh node lead to the inputs of the builder.
    rw [targets_build] at member
    split at member
    · rename_i equal
      rcases origin target member with old | ⟨earlier, rfl, fresh⟩
      · exact .inl old
      · exact .inr ⟨earlier, rfl, fresh, equal ▸ inside earlier member⟩
    · simp [targets_outside past] at member
  leaves new record past found leaf := by
    -- A leaf is built without inputs.
    rw [targets_build]
    split
    · rename_i equal
      have stored := core_build ctx kind type name payload inputs new
      rw [found, if_pos equal] at stored
      have kinds : record.core.kind = kind := by
        have cores := Option.some.inj stored
        rw [cores]
      rw [shape (kinds ▸ leaf)]
      rfl
    · exact targets_outside past

section Paths

variable {allowed : Option Nat → Prop} {before after : WILContext}

/-- Where a pointer of a grown graph comes from. -/
def Origin (base : Nat) (allowed : Option Nat → Prop) (pointer : Option Nat) : Prop :=
  allowed pointer ∨ ∃ fresh, pointer = some fresh ∧ base ≤ fresh

/-- Paths from old nodes stay in the old graph. -/
theorem Built.reach_old {base : Nat} (built : Built base allowed before after)
    (closed : before.Closed) {source : Nat} (old : source < before.graph.length)
    {sink : Option Nat} (path : Dag.Reach after.succ (some source) sink) :
    Dag.Reach before.succ (some source) sink ∧ ∀ ref, sink = some ref → ref < before.graph.length
    := by
  induction path with
  | refl => exact ⟨.refl, fun ref equal => by cases equal; exact old⟩
  | @tail middle sink _ edge next =>
    -- By induction the path is in the old graph up to its last edge, which is an edge of an old
    -- node.
    obtain ⟨path, inside⟩ := next
    cases middle with
    | none => simp [Dag.Edge, succ] at edge
    | some user =>
      have userOld := inside user rfl
      simp only [Dag.Edge, succ, built.targets user userOld] at edge
      refine ⟨path.tail edge, fun ref equal => ?_⟩
      subst equal
      exact closed user ref edge

/-- An old node below a fresh one is below an allowed pointer. -/
theorem Built.reach_fresh (built : Built before.graph.length allowed before after)
    (closed : before.Closed)
    (allowedOld : ∀ ref, allowed (some ref) → ref < before.graph.length)
    {pointer : Option Nat} (origin : Origin before.graph.length allowed pointer)
    {sink : Nat} (old : sink < before.graph.length)
    (path : Dag.Reach after.succ pointer (some sink)) :
    ∃ binding, allowed binding ∧ Dag.Reach before.succ binding (some sink) := by
  -- The induction goes along the path, from its start.
  induction path using Relation.ReflTransGen.head_induction_on with
  | refl =>
    rcases origin with bound | ⟨fresh, equal, past⟩
    · exact ⟨_, bound, .refl⟩
    · cases equal
      omega
  | @head source middle edge rest next =>
    rcases origin with bound | ⟨fresh, rfl, past⟩
    · -- From an allowed pointer the whole path is old.
      cases source with
      | none => simp [Dag.Edge, succ] at edge
      | some ref =>
        have whole := (built.reach_old closed (allowedOld ref bound) (.head edge rest)).1
        exact ⟨_, bound, whole⟩
    · -- A fresh node steps to an allowed pointer or to another fresh node.
      simp only [Dag.Edge, succ] at edge
      rcases built.fresh fresh past middle edge with bound | ⟨earlier, rfl, above, -⟩
      · exact next (.inl bound)
      · exact next (.inr ⟨earlier, rfl, above⟩)

/-- Growth keeps a graph grounded. -/
theorem Built.grounded (built : Built before.graph.length allowed before after)
    (closed : before.Closed)
    (allowedOld : ∀ ref, allowed (some ref) → ref < before.graph.length)
    (grounded : Dag.Grounded before.succ) : Dag.Grounded after.succ := by
  have null : Acc (fun sink source => Dag.Edge after.succ source sink) none :=
    ⟨none, fun sink edge => by simp [Dag.Edge, succ] at edge⟩
  -- Old nodes keep their edges, so they are grounded as before.
  have old : ∀ pointer, (∀ ref, pointer = some ref → ref < before.graph.length) →
      Acc (fun sink source => Dag.Edge after.succ source sink) pointer := by
    intro pointer
    induction pointer using grounded.induction with
    | _ pointer next =>
      intro inside
      refine ⟨pointer, fun sink edge => ?_⟩
      -- An edge of an old node is an edge of before, and leads to an old node.
      cases pointer with
      | none => simp [Dag.Edge, succ] at edge
      | some user =>
        simp only [Dag.Edge, succ, built.targets user (inside user rfl)] at edge
        refine next sink edge fun ref equal => ?_
        subst equal
        exact closed user ref edge
  -- Fresh nodes point at old nodes or at earlier fresh ones.
  have fresh : ∀ ref, Acc (fun sink source => Dag.Edge after.succ source sink) (some ref) := by
    intro ref
    induction ref using Nat.strongRecOn with
    | ind ref next =>
      -- What is not fresh is old, and an edge of a fresh node leads to something accessible.
      rcases Nat.lt_or_ge ref before.graph.length with inside | past
      · exact old (some ref) fun _ equal => by cases equal; exact inside
      · refine ⟨some ref, fun sink edge => ?_⟩
        rcases built.fresh ref past sink edge with bound | ⟨earlier, rfl, -, below⟩
        · refine old sink fun target equal => ?_
          subst equal
          exact allowedOld target bound
        · exact next earlier below
  refine ⟨fun pointer => ?_⟩
  -- The null pointer has no edges.
  cases pointer with
  | none => exact null
  | some ref => exact fresh ref

end Paths

/-! Values of graphs that share nodes. -/

section Values

variable {V : Type} {interp : WILInterp V}

/-- The assignment obeys the nodes of the graph from a position on. -/
def WILContext.ObeysFrom (base : Nat) (interp : WILInterp V) (ctx : WILContext)
    (value : Option Nat → V) : Prop :=
  ∀ (ref : Nat) (record : WILNode), base ≤ ref → ctx.graph[ref]? = some record →
    value (some ref) = interp.denote record ((ctx.targets ref).map value)

/-- The assignment obeys every node of the graph, whatever it does past the array. -/
structure WILContext.Obeys (interp : WILInterp V) (ctx : WILContext) (value : Option Nat → V) :
    Prop where
  null : value none = interp.null
  node : ctx.ObeysFrom 0 interp value

/-- A valuation of all nodes is one of the nodes from a place on. -/
theorem WILContext.Obeys.from {ctx : WILContext} {value : Option Nat → V}
    (obeys : ctx.Obeys interp value) (base : Nat) : ctx.ObeysFrom base interp value :=
  fun ref record _ found => obeys.node ref record (Nat.zero_le _) found

/-- The values that a graph denotes obey its nodes. -/
theorem WILContext.IsValuation.obeys {ctx : WILContext} {value : Option Nat → V}
    (valuation : ctx.IsValuation interp value) : ctx.Obeys interp value := by
  refine ⟨valuation none, fun ref record _ found => ?_⟩
  have equation := valuation (some ref)
  simpa [label, found, succ] using equation

/-- An assignment that obeys nodes of the grown graph obeys them in the old one. -/
theorem Built.obeysFrom {base from' : Nat} {allowed : Option Nat → Prop}
    {before after : WILContext} (built : Built base allowed before after) {value : Option Nat → V}
    (obeys : after.ObeysFrom from' interp value) : before.ObeysFrom from' interp value := by
  intro ref record past found
  -- A record that the smaller graph has is inside it, and was kept with its targets.
  have inside : ref < before.graph.length := by
    by_contra outside
    simp [List.getElem?_eq_none (Nat.not_lt.mp outside)] at found
  have kept := built.core ref inside
  rw [found] at kept
  cases later : after.graph[ref]? with
  | none => simp [later] at kept
  | some grown =>
    have cores : grown.core = record.core := by simpa [later] using kept
    rw [obeys ref grown past later, built.targets ref inside, ← interp.denote_core grown, cores,
      interp.denote_core]

/-- An assignment that obeys the grown graph obeys the old one. -/
theorem Built.obeys {base : Nat} {allowed : Option Nat → Prop} {before after : WILContext}
    (built : Built base allowed before after) {value : Option Nat → V}
    (obeys : after.Obeys interp value) : before.Obeys interp value :=
  ⟨obeys.null, built.obeysFrom obeys.node⟩

/-- Assignments that obey a closed graph agree with its valuation on the array. -/
theorem Obeys.eq_valuation {ctx : WILContext} (closed : ctx.Closed)
    (grounded : Dag.Grounded ctx.succ) {value value' : Option Nat → V}
    (valuation : ctx.IsValuation interp value) (obeys : ctx.Obeys interp value')
    (pointer : Option Nat) (inside : ∀ ref, pointer = some ref → ref < ctx.graph.length) :
    value' pointer = value pointer := by
  -- Induction along the edges, which never leave a closed graph.
  induction pointer using grounded.induction with
  | _ pointer next =>
    cases pointer with
    | none => exact obeys.null.trans valuation.obeys.null.symm
    | some ref =>
      have found := List.getElem?_eq_getElem (inside ref rfl)
      rw [obeys.node ref _ (Nat.zero_le _) found, valuation.obeys.node ref _ (Nat.zero_le _) found]
      congr 1
      refine List.map_congr_left fun target member => ?_
      refine next target member fun child equal => ?_
      subst equal
      exact closed ref child member

/-- Operator nodes denote their operator. -/
theorem WILInterp.denote_operator (interp : WILInterp V) {record : WILNode}
    (operator : record.kind.arity.isSome) (inputs : List V) :
    interp.denote record inputs = interp.operator record.kind inputs := by
  unfold WILInterp.denote
  cases kind : record.kind <;> simp_all [WILNodeKind.arity]

/-- A builder's node denotes what its fresh record denotes on the given inputs. -/
theorem obeys_build {base : Nat} {value : Option Nat → V} {ctx : WILContext} {kind : WILNodeKind}
    {type : WILType} {payload : WILNodePayload} (past : base ≤ ctx.graph.length)
    (slots : List (Option Nat × WILEdgeKind))
    (obeys : (wilBuild ctx kind type none payload slots).1.ObeysFrom base interp value) :
    value (some ctx.graph.length) =
      interp.denote
        { context := ctx.self, id := ctx.graph.length + 1, kind, type, name := none, payload,
          category := wilNodeKindCategory kind, inputs := [], uses := [], removed := false }
        (slots.map (value ·.1)) := by
  -- The last record of the graph is the fresh one, whose operands are the inputs.
  have core := core_build ctx kind type none payload slots ctx.graph.length
  rw [if_pos rfl] at core
  obtain ⟨record, found, cores⟩ := Option.map_eq_some_iff.mp core
  have equation := obeys _ record past found
  rw [targets_build, if_pos rfl, List.map_map, ← interp.denote_core, cores] at equation
  exact equation

/-! Replacing a node by a grown one of equal value. -/

/-- While the records of a graph stay, so do the nodes with their kinds and types. -/
theorem mem_of_cores {before after : WILContext}
    (cores : ∀ ref < before.graph.length,
      (after.graph[ref]?).map WILNode.core = (before.graph[ref]?).map WILNode.core)
    {node : WILNode} (member : node ∈ before.graph) :
    ∃ node' ∈ after.graph, node'.kind = node.kind ∧ node'.type = node.type := by
  obtain ⟨ref, read⟩ := List.mem_iff_getElem?.mp member
  -- The record is found at its old place, up to slots and uses.
  have core := cores ref (List.getElem?_eq_some_iff.mp read).1
  rw [read, Option.map_some] at core
  obtain ⟨node', found, same⟩ := Option.map_eq_some_iff.mp core
  have kind : node'.core.kind = node.core.kind := by rw [same]
  have type : node'.core.type = node.core.type := by rw [same]
  exact ⟨node', List.mem_of_getElem? found, kind, type⟩

/-- The kinds whose value ignores input slots. -/
def WILNodeKind.isLeaf : WILNodeKind → Bool
  | .constInt | .constFloat | .constBool | .param => true
  | _ => false

/-- Constants and parameters have no input slots. -/
def WILContext.LeafKinds (ctx : WILContext) : Prop :=
  ∀ ref record, ctx.graph[ref]? = some record → record.kind.isLeaf = true → ctx.targets ref = []

/-- The records of a graph show whether its leaves have slots. -/
theorem leafKinds_of_records {ctx : WILContext}
    (empty : ∀ record ∈ ctx.graph, record.kind.isLeaf = true → record.inputs = []) :
    ctx.LeafKinds := by
  intro ref record found leaf
  rw [targets_of_node found, WILNode.targets, empty record (List.mem_of_getElem? found) leaf,
    List.map_nil]

/-- Edits that keep records, and the number of slots of leaves at zero, keep leaves leaves. -/
theorem leafKinds_of_core {before after : WILContext} {ref : Nat} {record : WILNode}
    (leaves : before.LeafKinds) (found : after.graph[ref]? = some record)
    (core : (after.graph[ref]?).map WILNode.core = (before.graph[ref]?).map WILNode.core)
    (leaf : record.kind.isLeaf = true) : before.targets ref = [] := by
  rw [found] at core
  -- A leaf was one before, since its kind is part of the record that is kept.
  cases stored : before.graph[ref]? with
  | none => simp [stored] at core
  | some earlier =>
    have cores : record.core = earlier.core := by simpa [stored] using core
    have kinds : record.core.kind = earlier.core.kind := congrArg WILNode.kind cores
    simp only [WILNode.core] at kinds
    exact leaves ref earlier stored (kinds ▸ leaf)

/-- A graph whose old nodes keep their values, and reach no more old nodes than before. -/
structure Evolves (interp : WILInterp V) (before after : WILContext) : Prop where
  consistent : DefUse after
  grounded : Dag.Grounded after.succ
  longer : before.graph.length ≤ after.graph.length
  core : ∀ old < before.graph.length,
    (after.graph[old]?).map WILNode.core = (before.graph[old]?).map WILNode.core
  leaves : before.LeafKinds → after.LeafKinds
  reach : ∀ source sink, source < before.graph.length → sink < before.graph.length →
    Dag.Reach after.succ (some source) (some sink) →
    Dag.Reach before.succ (some source) (some sink)
  agree : ∀ value value', before.IsValuation interp value → after.IsValuation interp value' →
    ∀ old < before.graph.length, value' (some old) = value (some old) ∧
      (after.targets old).map value' = (before.targets old).map value

/-- A graph evolves into itself. -/
theorem Evolves.refl {ctx : WILContext} (consistent : DefUse ctx)
    (grounded : Dag.Grounded ctx.succ) : Evolves interp ctx ctx where
  consistent := consistent
  grounded := grounded
  longer := Nat.le_refl _
  core _ _ := rfl
  leaves := id
  reach _ _ _ _ path := path
  -- Both values are the one valuation of the graph.
  agree value value' valuation valuation' old _ := by
    rw [grounded.valuation_unique valuation valuation']
    exact ⟨rfl, rfl⟩

/-- Evolving goes on where it stopped. -/
theorem Evolves.trans {first second third : WILContext} (left : Evolves interp first second)
    (right : Evolves interp second third) : Evolves interp first third where
  consistent := right.consistent
  grounded := right.grounded
  longer := Nat.le_trans left.longer right.longer
  core old inside :=
    (right.core old (Nat.lt_of_lt_of_le inside left.longer)).trans (left.core old inside)
  leaves := right.leaves ∘ left.leaves
  reach source sink sourceOld sinkOld path :=
    left.reach source sink sourceOld sinkOld
      (right.reach source sink (Nat.lt_of_lt_of_le sourceOld left.longer)
        (Nat.lt_of_lt_of_le sinkOld left.longer) path)
  agree value value' valuation valuation' old inside := by
    -- The graph in the middle has a valuation that links the two.
    obtain ⟨middle, valuationMiddle⟩ := left.grounded.exists_valuation (second.label interp)
    have firstStep := left.agree value middle valuation valuationMiddle old inside
    have secondStep := right.agree middle value' valuationMiddle valuation' old
      (Nat.lt_of_lt_of_le inside left.longer)
    exact ⟨secondStep.1.trans firstStep.1, secondStep.2.trans firstStep.2⟩

section Replace

variable {allowed : Option Nat → Prop} {before middle : WILContext} {node replacement : Nat}

/-- A replacement built from proper descendants of a node does not reach it. -/
theorem Built.apart (built : Built before.graph.length allowed before middle)
    (consistent : DefUse before) (grounded : Dag.Grounded before.succ)
    (below : ∀ pointer, allowed pointer →
      Relation.TransGen (Dag.Edge before.succ) (some node) pointer)
    (allowedOld : ∀ ref, allowed (some ref) → ref < before.graph.length)
    (inside : node < before.graph.length)
    (origin : Origin before.graph.length allowed (some replacement)) :
    ¬ Dag.Reach middle.succ (some replacement) (some node) := by
  intro path
  -- A path into the old graph enters it through a binding, from which the node would reach itself.
  obtain ⟨binding, bound, rest⟩ :=
    built.reach_fresh consistent.closed allowedOld origin inside path
  exact grounded.acyclic (some node) ((below binding bound).trans_left rest)

/-- Building a replacement of equal value and redirecting all uses keeps every old value. -/
theorem Built.replaceAllUses (built : Built before.graph.length allowed before middle)
    (consistent : DefUse before) (grounded : Dag.Grounded before.succ)
    (below : ∀ pointer, allowed pointer →
      Relation.TransGen (Dag.Edge before.succ) (some node) pointer)
    (allowedOld : ∀ ref, allowed (some ref) → ref < before.graph.length)
    (inside : node < before.graph.length)
    (origin : Origin before.graph.length allowed (some replacement))
    (replacementInside : replacement < middle.graph.length)
    (equal : ∀ value, middle.Obeys interp value → value (some replacement) = value (some node)) :
    let after := wilNodeReplaceAllUses middle (some node) (some replacement)
    Evolves interp before after ∧
      (∀ value, after.IsValuation interp value → middle.IsValuation interp value) ∧
      ∀ sink < before.graph.length, Dag.Reach after.succ (some replacement) (some sink) →
        Dag.Reach before.succ (some node) (some sink) := by
  intro after
  have closed := consistent.closed
  have middleGrounded := built.grounded closed allowedOld grounded
  have apart := built.apart consistent grounded below allowedOld inside origin
  -- Redirecting changes no records, and redirects edges to the replacement only.
  have same : SameNodes middle after := sameNodes_replaceAllUses middle _ _
  have edges : ∀ source sink, Dag.Edge after.succ source sink →
      Dag.Edge middle.succ source sink ∨
        sink = some replacement ∧ Dag.Edge middle.succ source (some node) :=
    fun _ _ edge => built.consistent.edge_replaceAllUses edge
  -- The replacement does not reach the node, so no cycle is closed.
  have afterGrounded : Dag.Grounded after.succ := middleGrounded.redirected edges apart
  -- A valuation of the middle graph obeys the redirected slots, and there is only one.
  have valuations : ∀ value, after.IsValuation interp value →
      middle.IsValuation interp value := by
    intro value valuation
    obtain ⟨value', (valuation' : middle.IsValuation interp value')⟩ :=
      middleGrounded.exists_valuation (middle.label interp)
    have also : after.IsValuation interp value' := same.valuation valuation'
      (built.consistent.map_targets_replaceAllUses (equal value' valuation'.obeys))
    rw [afterGrounded.valuation_unique valuation also]
    exact valuation'
  -- What the replacement reaches in the old graph, the node has reached by way of a binding.
  have toOld : ∀ sink < before.graph.length,
      Dag.Reach middle.succ (some replacement) (some sink) →
      Dag.Reach before.succ (some node) (some sink) := by
    intro sink sinkOld path
    obtain ⟨binding, bound, rest⟩ := built.reach_fresh closed allowedOld origin sinkOld path
    exact (below binding bound).to_reflTransGen.trans rest
  refine ⟨⟨built.consistent.replaceAllUses _ _ ?_, afterGrounded, ?_, ?_, ?_, ?_, ?_⟩,
    valuations, ?_⟩
  · intro target targetEqual
    cases targetEqual
    exact replacementInside
  · rw [same.length]
    exact built.longer
  · intro old oldInside
    exact (same.core old).trans (built.core old oldInside)
  · intro leaves ref record found leaf
    -- Redirecting changes no number of slots, so leaves stay without any.
    have empty : middle.targets ref = [] := by
      rcases Nat.lt_or_ge ref before.graph.length with early | late
      · rw [built.targets ref early]
        exact leafKinds_of_core leaves found ((same.core ref).trans (built.core ref early)) leaf
      · have core := same.core ref
        rw [found] at core
        -- A record of the middle graph keeps its kind, and a fresh leaf has no slots.
        cases stored : middle.graph[ref]? with
        | none => simp [stored] at core
        | some earlier =>
          have cores : record.core = earlier.core := by simpa [stored] using core
          have kinds : record.core.kind = earlier.core.kind := congrArg WILNode.kind cores
          simp only [WILNode.core] at kinds
          refine built.leaves ref earlier late stored ?_
          rw [← kinds]
          cases kind : record.kind <;> simp [kind, WILNodeKind.isLeaf] at leaf <;> rfl
    rw [built.consistent.targets_replaceAllUses, empty]
    rfl
  · intro source sink sourceOld sinkOld path
    -- A path through the redirected edge went through the node itself before.
    rcases Dag.reach_of_redirected edges path with kept | ⟨first, last⟩
    · exact (built.reach_old closed sourceOld kept).1
    · have toNode := (built.reach_old closed sourceOld first.to_reflTransGen).1
      exact toNode.trans (toOld sink sinkOld last)
  -- The values of old nodes and of their slots are those of before.
  · intro value value' valuation valuation' old oldInside
    have obeys : before.Obeys interp value' := built.obeys (valuations value' valuation').obeys
    have agreement := Obeys.eq_valuation closed grounded valuation obeys
    refine ⟨agreement (some old) fun ref equal => by cases equal; exact oldInside, ?_⟩
    have replacementValue := equal value' (valuations value' valuation').obeys
    rw [built.consistent.map_targets_replaceAllUses replacementValue, built.targets old oldInside]
    refine List.map_congr_left fun target member => agreement target fun ref equal => ?_
    subst equal
    exact closed old ref member
  -- The replacement reaches no more than the bindings do.
  · intro sink sinkOld path
    rcases Dag.reach_of_redirected edges path with kept | ⟨first, -⟩
    · exact toOld sink sinkOld kept
    · exact absurd first.to_reflTransGen apart

end Replace

/-- Pointing a slot at a node that replaces its old target keeps every old value. -/
theorem Evolves.replaceInput {before after : WILContext} (evolves : Evolves interp before after)
    (grounded : Dag.Grounded before.succ) {node index replacement : Nat}
    (inside : node < before.graph.length) (replacementInside : replacement < after.graph.length)
    (below : ∀ sink < before.graph.length, Dag.Reach after.succ (some replacement) (some sink) →
      Dag.Reach before.succ (before.inputAt node index) (some sink))
    (equal : ∀ value value', before.IsValuation interp value → after.IsValuation interp value' →
      value' (some replacement) = value (before.inputAt node index)) :
    Evolves interp before (wilNodeReplaceInput after node index (some replacement)) := by
  obtain ⟨value, (valuation : before.IsValuation interp value)⟩ :=
    grounded.exists_valuation (before.label interp)
  obtain ⟨value', (valuation' : after.IsValuation interp value')⟩ :=
    evolves.grounded.exists_valuation (after.label interp)
  have slots := (evolves.agree value value' valuation valuation' node inside).2
  have count : (after.targets node).length = (before.targets node).length := by
    simpa using congrArg List.length slots
  by_cases valid : index < (after.targets node).length
  · have validBefore : index < (before.targets node).length := by omega
    have same := sameNodes_replaceInput after node index (some replacement)
    -- The old target of the slot is a successor of the node.
    have edge : Dag.Edge before.succ (some node) (before.inputAt node index) := by
      rw [inputAt_of_valid validBefore]
      exact List.getElem_mem validBefore
    have apart : ¬ Dag.Reach after.succ (some replacement) (some node) := by
      intro path
      exact grounded.acyclic (some node) (.head' edge (below node inside path))
    have edges : ∀ source sink,
        Dag.Edge (wilNodeReplaceInput after node index (some replacement)).succ source sink →
        Dag.Edge after.succ source sink ∨ source = some node ∧ sink = some replacement :=
      fun _ _ edge => edge_replaceInput edge
    have newGrounded := evolves.grounded.added edges apart
    -- The slot held the value that the replacement has.
    have slotValue : value' (some replacement) = value' (after.inputAt node index) := by
      rw [equal value value' valuation valuation', inputAt_of_valid valid,
        inputAt_of_valid validBefore]
      have read := congrArg (fun list => list[index]?) slots
      simp only [List.getElem?_map, List.getElem?_eq_getElem valid,
        List.getElem?_eq_getElem validBefore, Option.map_some, Option.some.injEq] at read
      exact read.symm
    -- So all slots keep their values, and the valuation stays.
    have kept := fun user => map_targets_replaceInput valid slotValue user
    have also := same.valuation valuation' kept
    refine ⟨evolves.consistent.replaceInput (by simpa using replacementInside) index, newGrounded,
      ?_, ?_, ?_, ?_, ?_⟩
    · rw [same.length]
      exact evolves.longer
    · intro old oldInside
      exact (same.core old).trans (evolves.core old oldInside)
    · intro leaves ref record found leaf
      rw [targets_replaceInput]
      have empty := leafKinds_of_core (evolves.leaves leaves) found (same.core ref) leaf
      split <;> simp [empty]
    -- A path over the new edge went to the node before, and from there on.
    · intro source sink sourceOld sinkOld path
      rcases Dag.reach_of_added edges path with avoids | ⟨first, last⟩
      · exact evolves.reach source sink sourceOld sinkOld avoids
      · have toNode := evolves.reach source node sourceOld inside first
        exact (toNode.tail edge).trans (below sink sinkOld last)
    · intro first last valuationFirst valuationLast old oldInside
      rw [newGrounded.valuation_unique valuationLast also, kept]
      exact evolves.agree first value' valuationFirst valuation' old oldInside
  · -- A slot past the last one is not written.
    have refused : ¬ index < after.inputCount node := by rwa [inputCount_eq]
    simpa [wilNodeReplaceInput, refused] using evolves

end Values

end Wirble
