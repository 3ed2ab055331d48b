import Mathlib.Logic.Relation
import Mathlib.Order.WellFounded
import Mathlib.Data.Set.Finite.Basic
import Mathlib.Data.Fintype.Order

/-! Directed graphs given by successor lists, and the values their nodes denote. -/

namespace Dag

variable {ι V : Type*}

/-- One step along the graph. -/
def Edge (succ : ι → List ι) (source target : ι) : Prop := target ∈ succ source

/-- Any number of steps along the graph. -/
abbrev Reach (succ : ι → List ι) : ι → ι → Prop := Relation.ReflTransGen (Edge succ)

/-- No path of positive length returns to its start. -/
def Acyclic (succ : ι → List ι) : Prop := ∀ node, ¬ Relation.TransGen (Edge succ) node node

/-- No infinite path leaves any node. -/
def Grounded (succ : ι → List ι) : Prop :=
  WellFounded fun target source => Edge succ source target

/-- Edges that lead to nodes of a lower rank form no cycle. -/
theorem acyclic_of_rank {succ : ι → List ι} (rank : ι → Nat)
    (descends : ∀ source target, Edge succ source target → rank target < rank source) :
    Acyclic succ := by
  -- The rank falls along every path.
  have falls : ∀ source target, Relation.TransGen (Edge succ) source target →
      rank target < rank source := by
    intro source target path
    induction path with
    | single edge => exact descends source _ edge
    | @tail middle last _ edge next =>
      have step := descends middle last edge
      omega
  intro node cycle
  exact Nat.lt_irrefl _ (falls node node cycle)

/-- A grounded graph has no cycle. -/
theorem Grounded.acyclic {succ : ι → List ι} (grounded : Grounded succ) : Acyclic succ := by
  intro node cycle
  -- The transitive closure of a well-founded relation relates nothing to itself.
  have wellFounded := grounded.transGen
  have swapped := Relation.transGen_swap.mpr cycle
  exact wellFounded.irrefl.irrefl node swapped

/-- An acyclic graph in which finitely many nodes have successors is grounded. -/
theorem Acyclic.grounded {succ : ι → List ι} (acyclic : Acyclic succ)
    (finite : {node | succ node ≠ []}.Finite) : Grounded succ := by
  -- On the finitely many inner nodes, the closure is a strict order.
  have inner : Finite {node | succ node ≠ []} := finite
  let below : {node | succ node ≠ []} → {node | succ node ≠ []} → Prop :=
    fun target source => Relation.TransGen (Edge succ) source target
  have transitive : IsTrans _ below := ⟨fun _ _ _ first second => second.trans first⟩
  have irreflexive : Std.Irrefl below := ⟨fun node cycle => acyclic node cycle⟩
  have wellFounded : WellFounded below := Finite.wellFounded_of_trans_of_irrefl below
  -- Nodes without successors are accessible at once, and the others by induction on that order.
  have leaf : ∀ node, succ node = [] →
      Acc (fun target source => Edge succ source target) node := by
    intro node empty
    refine ⟨node, fun target edge => ?_⟩
    simp [Edge, empty] at edge
  have innerAcc : ∀ node : {node | succ node ≠ []},
      Acc (fun target source => Edge succ source target) node.val := by
    intro node
    induction node using wellFounded.induction with
    | _ node next =>
      refine ⟨node.val, fun target edge => ?_⟩
      -- A successor is a leaf or an inner node below this one.
      by_cases empty : succ target = []
      · exact leaf target empty
      · exact next ⟨target, empty⟩ (.single edge)
  refine ⟨fun node => ?_⟩
  by_cases empty : succ node = []
  · exact leaf node empty
  · exact innerAcc ⟨node, empty⟩

section Redirect

variable {succ succ' : ι → List ι} {user target : ι}

/-- A path of a graph with one more edge avoids that edge or goes through it. -/
theorem reach_of_added (added : ∀ source sink, Edge succ' source sink →
      Edge succ source sink ∨ source = user ∧ sink = target) {source sink : ι}
    (path : Reach succ' source sink) :
    Reach succ source sink ∨ Reach succ source user ∧ Reach succ target sink := by
  induction path using Relation.ReflTransGen.head_induction_on with
  | refl => exact .inl .refl
  | head edge _ next =>
    -- The first step is an old edge or the new one, and the rest splits by induction.
    rcases added _ _ edge with old | ⟨rfl, rfl⟩
    · rcases next with avoids | ⟨first, last⟩
      · exact .inl (.head old avoids)
      · exact .inr ⟨.head old first, last⟩
    · rcases next with avoids | ⟨_, last⟩
      · exact .inr ⟨.refl, avoids⟩
      · exact .inr ⟨.refl, last⟩

/-- One more edge keeps a graph grounded when its target cannot reach its source. -/
theorem Grounded.added (grounded : Grounded succ)
    (added : ∀ source sink, Edge succ' source sink →
      Edge succ source sink ∨ source = user ∧ sink = target)
    (apart : ¬ Reach succ target user) : Grounded succ' := by
  -- Nodes that cannot reach the user never meet the new edge.
  have away : ∀ node, ¬ Reach succ node user →
      Acc (fun sink source => Edge succ' source sink) node := by
    intro node
    induction node using grounded.induction with
    | _ node next =>
      intro unreached
      refine ⟨node, fun sink edge => ?_⟩
      rcases added _ _ edge with old | ⟨rfl, rfl⟩
      · exact next sink old fun path => unreached (.head old path)
      · exact absurd .refl unreached
  -- With that, the one new edge leads to an accessible node.
  refine ⟨fun node => ?_⟩
  induction node using grounded.induction with
  | _ node next =>
    refine ⟨node, fun sink edge => ?_⟩
    rcases added _ _ edge with old | ⟨-, rfl⟩
    · exact next sink old
    · exact away sink apart

/-- A path of a redirected graph is an old path, or leads to the old target and on from the new. -/
theorem reach_of_redirected {old new : ι} (redirected : ∀ source sink, Edge succ' source sink →
      Edge succ source sink ∨ sink = new ∧ Edge succ source old) {source sink : ι}
    (path : Reach succ' source sink) :
    Reach succ source sink ∨
      Relation.TransGen (Edge succ) source old ∧ Reach succ new sink := by
  induction path using Relation.ReflTransGen.head_induction_on with
  | refl => exact .inl .refl
  | head edge _ next =>
    rcases redirected _ _ edge with kept | ⟨rfl, toOld⟩
    · rcases next with avoids | ⟨first, last⟩
      · exact .inl (.head kept avoids)
      · exact .inr ⟨.head kept first, last⟩
    · -- Whether or not the rest is redirected again, its last stretch starts at the new target.
      rcases next with avoids | ⟨_, last⟩
      · exact .inr ⟨.single toOld, avoids⟩
      · exact .inr ⟨.single toOld, last⟩

/-- A path to the old target becomes a path to the new one. -/
theorem transGen_of_redirected {old new : ι}
    (kept : ∀ source sink, Edge succ source sink → sink ≠ old → Edge succ' source sink)
    (moved : ∀ source, Edge succ source old → Edge succ' source new) {source : ι}
    (path : Relation.TransGen (Edge succ) source old) :
    Relation.TransGen (Edge succ') source new := by
  induction path using Relation.TransGen.head_induction_on with
  | single edge => exact .single (moved _ edge)
  | @head source middle edge _ next =>
    -- The path may meet the old target early.
    by_cases early : middle = old
    · exact .single (moved source (early ▸ edge))
    · exact .head (kept source middle edge early) next

/-- Redirecting edges keeps a graph grounded when the new target cannot reach the old one. -/
theorem Grounded.redirected (grounded : Grounded succ) {old new : ι}
    (redirected : ∀ source sink, Edge succ' source sink →
      Edge succ source sink ∨ sink = new ∧ Edge succ source old)
    (apart : ¬ Reach succ new old) : Grounded succ' := by
  -- Nodes that cannot reach the old target have no redirected edge below them.
  have away : ∀ node, ¬ Reach succ node old →
      Acc (fun sink source => Edge succ' source sink) node := by
    intro node
    induction node using grounded.induction with
    | _ node next =>
      intro unreached
      refine ⟨node, fun sink edge => ?_⟩
      rcases redirected _ _ edge with kept | ⟨-, toOld⟩
      · exact next sink kept fun path => unreached (.head kept path)
      · exact absurd (.single toOld) unreached
  -- With that, redirected edges lead to an accessible node.
  refine ⟨fun node => ?_⟩
  induction node using grounded.induction with
  | _ node next =>
    refine ⟨node, fun sink edge => ?_⟩
    rcases redirected _ _ edge with kept | ⟨rfl, -⟩
    · exact next sink kept
    · exact away sink apart

end Redirect

/-- Bounds that exist one by one have a common one, when larger bounds serve as well. -/
theorem exists_common_bound {α : Type*} (holds : Nat → α → Prop)
    (larger : ∀ {low high element}, low ≤ high → holds low element → holds high element)
    {list : List α} (each : ∀ element ∈ list, ∃ bound, holds bound element) :
    ∃ bound, ∀ element ∈ list, holds bound element := by
  induction list with
  | nil => exact ⟨0, fun _ member => absurd member List.not_mem_nil⟩
  | cons head tail next =>
    obtain ⟨first, atHead⟩ := each head (.head _)
    obtain ⟨second, atTail⟩ := next fun element member => each element (.tail _ member)
    -- The larger of the two bounds serves both the head and the tail.
    refine ⟨max first second, fun element member => ?_⟩
    rcases List.mem_cons.mp member with rfl | inTail
    · exact larger (Nat.le_max_left _ _) atHead
    · exact larger (Nat.le_max_right _ _) (atTail element inTail)

section Values

variable (label : ι → List V → V) (succ : ι → List ι)

/-- The value of a node, computed from its successors as far as the fuel allows. -/
def eval : Nat → ι → Option V
  | 0, _ => none
  | fuel + 1, node => ((succ node).mapM (eval fuel)).map (label node)

/-- The node evaluates to the value with enough fuel. -/
def Denotes (node : ι) (value : V) : Prop := ∃ fuel, eval label succ fuel node = some value

/-- An assignment of values that obeys the label of every node. -/
def IsValuation (value : ι → V) : Prop :=
  ∀ node, value node = label node ((succ node).map value)

variable {label succ}

/-- A successful traversal maps every element. -/
theorem mapM_some_of_agree {α β : Type*} {f : α → Option β} {g : α → β} {list : List α}
    {values : List β} (traversed : list.mapM f = some values)
    (agree : ∀ element ∈ list, ∀ value, f element = some value → g element = value) :
    values = list.map g := by
  induction list generalizing values with
  | nil => simpa using traversed.symm
  | cons head tail next =>
    -- The head and the tail both succeed, and agree with the map.
    rw [List.mapM_cons] at traversed
    cases first : f head with
    | none => simp [first] at traversed
    | some value =>
      cases rest : tail.mapM f with
      | none => simp [first, rest] at traversed
      | some others =>
        have split : value :: others = values := by simpa [first, rest] using traversed
        have tailAgree := next rest fun element member => agree element (.tail _ member)
        rw [← split, List.map_cons, agree head (.head _) value first, tailAgree]

/-- A traversal succeeds exactly when it succeeds element by element. -/
theorem mapM_eq_some_iff {α β : Type*} {f : α → Option β} {list : List α} {values : List β} :
    list.mapM f = some values ↔ List.Forall₂ (fun element value => f element = some value)
      list values := by
  induction list generalizing values with
  | nil => simp [eq_comm]
  | cons head tail next =>
    rw [List.mapM_cons]
    -- The head succeeds with the first value, and the tail with the others.
    constructor
    · intro traversed
      obtain ⟨value, first, rest⟩ := Option.bind_eq_some_iff.mp traversed
      obtain ⟨others, second, split⟩ := Option.bind_eq_some_iff.mp rest
      cases Option.some.inj split
      exact .cons first (next.mp second)
    · intro related
      cases related with
      | cons first others => simp [first, next.mpr others]

/-- A traversal succeeds when every element does. -/
theorem mapM_eq_some_map {α β : Type*} {f : α → Option β} {g : α → β} {list : List α}
    (present : ∀ element ∈ list, f element = some (g element)) :
    list.mapM f = some (list.map g) := by
  induction list with
  | nil => rfl
  | cons head tail next =>
    -- The tail succeeds by induction, and the head by assumption.
    have tailPresent := next fun element member => present element (.tail _ member)
    simp [List.mapM_cons, present head (.head _), tailPresent]

/-- A traversal has a result when every element has one. -/
theorem exists_mapM_eq_some {α β : Type*} {f : α → Option β} {list : List α}
    (present : ∀ element ∈ list, ∃ value, f element = some value) :
    ∃ values, list.mapM f = some values := by
  induction list with
  | nil => exact ⟨[], rfl⟩
  | cons head tail next =>
    obtain ⟨value, first⟩ := present head (.head _)
    -- The results of the tail are those of its elements.
    obtain ⟨values, rest⟩ := next fun element member => present element (.tail _ member)
    exact ⟨value :: values, by simp [List.mapM_cons, first, rest]⟩

/-- A traversal with a more defined function gives the same result. -/
theorem mapM_some_mono {α β : Type*} {f g : α → Option β} {list : List α} {values : List β}
    (traversed : list.mapM f = some values)
    (defined : ∀ element value, f element = some value → g element = some value) :
    list.mapM g = some values := by
  induction list generalizing values with
  | nil => simpa using traversed
  | cons head tail next =>
    -- Both traversals go through the same head, where one defines the other.
    rw [List.mapM_cons] at traversed ⊢
    cases first : f head with
    | none => simp [first] at traversed
    | some value =>
      cases rest : tail.mapM f with
      | none => simp [first, rest] at traversed
      | some others =>
        rw [defined head value first, next rest]
        simpa [first, rest] using traversed

/-- Evaluation computes the value that any valuation assigns. -/
theorem eval_eq_valuation {value : ι → V} (valuation : IsValuation label succ value)
    {fuel : Nat} {node : ι} {result : V} (evaluated : eval label succ fuel node = some result) :
    value node = result := by
  induction fuel generalizing node result with
  | zero => simp [eval] at evaluated
  | succ fuel next =>
    rw [eval, Option.map_eq_some_iff] at evaluated
    obtain ⟨inputs, traversed, rfl⟩ := evaluated
    -- Every input was evaluated with less fuel, so the inputs agree with the valuation.
    have agree := mapM_some_of_agree traversed fun _ _ _ computed => next computed
    rw [agree, ← valuation node]

/-- Evaluation that succeeded succeeds with more fuel. -/
theorem eval_more {fuel : Nat} {node : ι} {result : V}
    (evaluated : eval label succ fuel node = some result) {more : Nat} (enough : fuel ≤ more) :
    eval label succ more node = some result := by
  induction fuel generalizing node result more with
  | zero => simp [eval] at evaluated
  | succ fuel next =>
    obtain ⟨more, rfl⟩ : ∃ rest, more = rest + 1 := ⟨more - 1, by omega⟩
    rw [eval, Option.map_eq_some_iff] at evaluated ⊢
    obtain ⟨inputs, traversed, labelled⟩ := evaluated
    -- The traversal repeats step by step with the larger fuel.
    have repeated := mapM_some_mono traversed fun _ _ computed =>
      next computed (Nat.le_of_succ_le_succ enough)
    exact ⟨inputs, repeated, labelled⟩

/-- A node denotes at most one value. -/
theorem Denotes.unique {node : ι} {left right : V} (first : Denotes label succ node left)
    (second : Denotes label succ node right) : left = right := by
  obtain ⟨fuel, evaluated⟩ := first
  obtain ⟨fuel', evaluated'⟩ := second
  -- With the larger amount of fuel both evaluations give their value.
  have large := eval_more evaluated (Nat.le_max_left fuel fuel')
  have large' := eval_more evaluated' (Nat.le_max_right fuel fuel')
  simpa [large] using large'

variable (label)

/-- A grounded graph has a valuation. -/
theorem Grounded.exists_valuation (grounded : Grounded succ) :
    ∃ value : ι → V, IsValuation label succ value := by
  -- The value of a node is defined by recursion along its edges.
  let value : ι → V := grounded.fix fun node inputs =>
    label node ((succ node).attach.map fun input => inputs input.val input.property)
  refine ⟨value, fun node => ?_⟩
  have unfolded : value node =
      label node ((succ node).attach.map fun input => value input.val) := grounded.fix_eq _ node
  simpa using unfolded

variable {label}

/-- Two valuations of a grounded graph agree. -/
theorem Grounded.valuation_unique (grounded : Grounded succ) {value value' : ι → V}
    (valuation : IsValuation label succ value) (valuation' : IsValuation label succ value') :
    value = value' := by
  funext node
  induction node using grounded.induction with
  | _ node next =>
    -- Both values are the label's on the values of the successors, which agree by induction.
    rw [valuation node, valuation' node]
    congr 1
    exact List.map_congr_left next

/-- Finitely many nodes that denote values evaluate with one common fuel. -/
theorem exists_common_fuel {value : ι → V} {nodes : List ι}
    (denoted : ∀ node ∈ nodes, Denotes label succ node (value node)) :
    ∃ fuel, ∀ node ∈ nodes, eval label succ fuel node = some (value node) :=
  exists_common_bound (fun fuel node => eval label succ fuel node = some (value node))
    (fun enough evaluated => eval_more evaluated enough) denoted

/-- In a grounded graph every node denotes the value of its valuation. -/
theorem Grounded.denotes (grounded : Grounded succ) {value : ι → V}
    (valuation : IsValuation label succ value) (node : ι) :
    Denotes label succ node (value node) := by
  induction node using grounded.induction with
  | _ node next =>
    -- The successors are finitely many, so one amount of fuel is enough for all of them.
    obtain ⟨fuel, inputs⟩ := exists_common_fuel next
    refine ⟨fuel + 1, ?_⟩
    rw [eval, mapM_eq_some_map inputs, Option.map_some, ← valuation node]

section Move

-- All edges to one node are moved to another.
variable {succ' : ι → List ι} {value value' : ι → V} {move : ι → ι} {old : ι}

/-- Away from the moved edges nothing changes its value. -/
theorem IsValuation.unchanged (valuation : IsValuation label succ value)
    (valuation' : IsValuation label succ' value') (grounded : Grounded succ)
    (moved : ∀ node, succ' node = (succ node).map move)
    (kept : ∀ node, node ≠ old → move node = node) {node : ι} (away : ¬ Reach succ node old) :
    value' node = value node := by
  induction node using grounded.induction with
  | _ node next =>
    rw [valuation node, valuation' node, moved, List.map_map]
    congr 1
    -- No edge below the node is moved.
    refine List.map_congr_left fun target edge => ?_
    have apart : ¬ Reach succ target old := fun path => away (.head edge path)
    have other : target ≠ old := by
      rintro rfl
      exact apart .refl
    rw [Function.comp_apply, kept target other]
    exact next target edge apart

/-- A relation that labels respect holds between the values of all nodes when it holds between
those of the two targets. -/
theorem IsValuation.related (related : V → V → Prop) (valuation : IsValuation label succ value)
    (valuation' : IsValuation label succ' value') (grounded : Grounded succ)
    (moved : ∀ node, succ' node = (succ node).map move)
    (kept : ∀ node, node ≠ old → move node = node)
    (respected : ∀ node inputs inputs', List.Forall₂ related inputs inputs' →
      related (label node inputs) (label node inputs'))
    (targets : related (value old) (value' (move old))) (node : ι) :
    related (value node) (value' node) := by
  induction node using grounded.induction with
  -- Both values come from labels and the values of successors, which are related one by one.
  | _ node next =>
    rw [valuation node, valuation' node, moved, List.map_map]
    refine respected node _ _ ?_
    rw [List.forall₂_map_left_iff, List.forall₂_map_right_iff, List.forall₂_same]
    intro target edge
    by_cases hit : target = old
    · rw [hit]
      exact targets
    · rw [Function.comp_apply, kept target hit]
      exact next target edge

end Move

end Values

end Dag
