import Mathlib.Data.List.Nodup
import Mathlib.Data.List.Count
import Wirble.Library.Dag

/-! Depth-first search: it emits each node once, and the successors of a node before the node. -/

namespace Dfs

variable {ι : Type*}

/-- The nodes entered so far, and those left again in the order of leaving. -/
structure State (ι : Type*) where
  seen : List ι
  post : List ι

/-- What a search adds to a state: new nodes, each left once, whose successors are all entered. -/
structure Extends (succ : ι → List ι) (state state' : State ι) (new : List ι) : Prop where
  post : state'.post = state.post ++ new
  once : new.Nodup
  fresh : ∀ node ∈ new, node ∉ state.seen
  seen : ∀ node, node ∈ state'.seen ↔ node ∈ state.seen ∨ node ∈ new
  closed : ∀ node ∈ new, ∀ next ∈ succ node, next ∈ state'.seen

namespace Extends

variable {succ : ι → List ι} {state state' state'' : State ι} {new new' : List ι}

/-- A search that entered no node adds nothing. -/
theorem refl (state : State ι) : Extends succ state state [] where
  post := by simp
  once := List.nodup_nil
  fresh := by simp
  seen := by simp
  closed := by simp

/-- What two searches add one after the other is added by both together. -/
theorem trans (first : Extends succ state state' new)
    (second : Extends succ state' state'' new') :
    Extends succ state state'' (new ++ new') where
  post := by rw [second.post, first.post, List.append_assoc]
  once := by
    -- The second search enters nothing that the first one has entered.
    refine List.nodup_append.mpr ⟨first.once, second.once, ?_⟩
    rintro node old _ later rfl
    exact second.fresh node later ((first.seen node).mpr (.inr old))
  fresh node member := by
    rcases List.mem_append.mp member with old | later
    · exact first.fresh node old
    · exact fun before => second.fresh node later ((first.seen node).mpr (.inl before))
  seen node := by
    rw [second.seen, first.seen, List.mem_append, or_assoc]
  closed node member next edge := by
    -- Successors of the first search stay entered.
    rcases List.mem_append.mp member with old | later
    · exact (second.seen next).mpr (.inl (first.closed node old next edge))
    · exact second.closed node later next edge

/-- A node that was entered stays entered. -/
theorem mono (extends_ : Extends succ state state' new) {node : ι} (before : node ∈ state.seen) :
    node ∈ state'.seen :=
  (extends_.seen node).mpr (.inl before)

end Extends

/-- The nodes left so far have all their successors before them. -/
def Ordered (succ : ι → List ι) (post : List ι) : Prop :=
  ∀ front node back, post = front ++ node :: back → ∀ next ∈ succ node, next ∈ front

/-- A node whose successors have all been left may be left next. -/
theorem Ordered.concat {succ : ι → List ι} {post : List ι} {node : ι} (ordered : Ordered succ post)
    (below : ∀ next ∈ succ node, next ∈ post) : Ordered succ (post ++ [node]) := by
  intro front other back split next edge
  rcases List.eq_nil_or_concat back with rfl | ⟨back, final, rfl⟩
  · -- The node in question is the last one.
    obtain ⟨before, last⟩ := List.append_inj split.symm (by
      have lengths := congrArg List.length split
      simp only [List.length_append, List.length_cons, List.length_nil] at lengths
      omega)
    obtain rfl : other = node := (List.cons.inj last).1
    rw [before]
    exact below next edge
  · -- Any other node stands in the part that was ordered before.
    have shorter : post = front ++ other :: back := by
      have whole : post ++ [node] = (front ++ other :: back) ++ [final] := by
        rw [split]
        simp
      exact List.append_inj_left' whole rfl
    exact ordered front other back shorter next edge

/-- Every node that is entered but not left reaches a node by a path of positive length. -/
def OpenReaches (succ : ι → List ι) (state : State ι) (node : ι) : Prop :=
  ∀ other ∈ state.seen, other ∉ state.post → Relation.TransGen (Dag.Edge succ) other node

/-- A search opens no node for good. -/
theorem Extends.openReaches {succ : ι → List ι} {state state' : State ι} {new : List ι}
    (extends_ : Extends succ state state' new) {node : ι}
    (reaches : OpenReaches succ state node) : OpenReaches succ state' node := by
  intro other entered notLeft
  rw [extends_.post, List.mem_append, not_or] at notLeft
  exact reaches other (((extends_.seen other).mp entered).resolve_right notLeft.2) notLeft.1

/-- A path that starts in a set closed under successors stays in it. -/
theorem reach_inside {succ : ι → List ι} {set : List ι}
    (closed : ∀ node ∈ set, ∀ next ∈ succ node, next ∈ set) {node other : ι} (inside : node ∈ set) (path : Dag.Reach succ node other) : other ∈ set := by
  induction path with
  | refl => exact inside
  | tail _ edge ih => exact closed _ ih _ edge

/-- In the reverse of an ordered list every node stands before its successors. -/
theorem Ordered.before {succ : ι → List ι} {post : List ι} (ordered : Ordered succ post)
    (once : post.Nodup) {node next : ι} (edge : next ∈ succ node) {i j : Nat}
    (first : post.reverse[i]? = some node) (second : post.reverse[j]? = some next) : i < j := by
  have member : node ∈ post := List.mem_reverse.mp (List.mem_of_getElem? first)
  obtain ⟨front, back, rfl⟩ := List.append_of_mem member
  have earlier := ordered front node back rfl next edge
  have reversed : (front ++ node :: back).reverse = back.reverse ++ node :: front.reverse := by
    simp
  rw [reversed] at first second
  have distinct : (back.reverse ++ node :: front.reverse).Nodup := by
    rw [← reversed]
    exact List.nodup_reverse.mpr once
  -- Both nodes have one position only, and the part with the successor comes later.
  obtain ⟨k, place⟩ := List.getElem?_of_mem (List.mem_reverse.mpr earlier)
  have here : (back.reverse ++ node :: front.reverse)[back.reverse.length]? = some node := by
    simp
  have there : (back.reverse ++ node :: front.reverse)[back.reverse.length + (k + 1)]? =
      some next := by
    rw [List.getElem?_append_right (Nat.le_add_right _ _), Nat.add_sub_cancel_left,
      List.getElem?_cons_succ]
    exact place
  -- A node without repetitions has one position.
  have position : ∀ {k l : Nat} {x : ι},
      (back.reverse ++ node :: front.reverse)[k]? = some x →
      (back.reverse ++ node :: front.reverse)[l]? = some x → k = l := by
    intro k l x left right
    obtain ⟨bound, -⟩ := List.getElem?_eq_some_iff.mp left
    exact (List.getElem?_inj bound distinct).mp (left.trans right.symm)
  rw [position first here, position second there]
  omega

section Search

variable [DecidableEq ι]

/-- Enter a node unless it was entered before, search below it, and leave it. The first argument
bounds the depth of the recursion. -/
def visit (succ : ι → List ι) : Nat → State ι → ι → State ι
  | 0, state, _ => state
  | depth + 1, state, node =>
    if node ∈ state.seen then state
    else
      let inner := (succ node).foldl (visit succ depth) { state with seen := node :: state.seen }
      { inner with post := inner.post ++ [node] }

/-- Search from several roots in turn. -/
def search (succ : ι → List ι) (depth : Nat) (roots : List ι) : State ι :=
  roots.foldl (visit succ depth) ⟨[], []⟩

/-- The nodes of a universe that are still to be entered. -/
def unseen (universe_ : List ι) (state : State ι) : Nat :=
  universe_.countP (· ∉ state.seen)

/-- A search leaves no more nodes unseen than there were. -/
theorem Extends.unseen_le {succ : ι → List ι} {universe_ : List ι} {state state' : State ι}
    {new : List ι} (extends_ : Extends succ state state' new) :
    unseen universe_ state' ≤ unseen universe_ state := by
  refine List.countP_mono_left fun node _ missing => ?_
  simp only [decide_eq_true_eq] at missing ⊢
  exact fun before => missing (extends_.mono before)

/-- Entering a node of the universe leaves one less to be entered. -/
theorem unseen_enter {universe_ : List ι} {state : State ι} {node : ι}
    (inside : node ∈ universe_) (missing : node ∉ state.seen) :
    unseen universe_ { state with seen := node :: state.seen } < unseen universe_ state := by
  -- The counts differ at the node that is entered and nowhere else.
  unfold unseen
  induction universe_ with
  | nil => cases inside
  | cons first rest ih =>
    simp only [List.countP_cons]
    have rest_le : rest.countP (fun other => decide (other ∉ node :: state.seen)) ≤
        rest.countP (fun other => decide (other ∉ state.seen)) := by
      refine List.countP_mono_left fun other _ => ?_
      simp only [decide_eq_true_eq, List.mem_cons, not_or]
      exact fun both => both.2
    -- The node entered is the head of the universe or lies further on.
    rcases List.mem_cons.mp inside with rfl | later
    · simp only [List.mem_cons, true_or, not_true, decide_false, Bool.false_eq_true, if_false,
        missing, not_false_iff, decide_true, if_true]
      simp only [List.mem_cons] at rest_le
      omega
    · have fewer := ih later
      by_cases same : first = node
      · simp [same, missing] at fewer ⊢
        omega
      · simp only [List.mem_cons, same, false_or] at fewer ⊢
        omega

variable {succ : ι → List ι} {universe_ : List ι}

/-- What holds of the state after visiting one node. -/
def Visits (succ : ι → List ι) (state : State ι) (node : ι) (state' : State ι) : Prop :=
  ∃ new, Extends succ state state' new ∧ node ∈ state'.seen ∧
    (∀ other ∈ new, Dag.Reach succ node other) ∧
      (node ∉ state.seen → ∃ front, new = front ++ [node])

/-- What holds of the state after visiting several nodes in turn. -/
theorem foldl_visits {visitNode : State ι → ι → State ι} {bound : Nat}
    (each : ∀ state node, node ∈ universe_ → unseen universe_ state ≤ bound →
      Visits succ state node (visitNode state node))
    (nodes : List ι) (state : State ι) (inside : ∀ node ∈ nodes, node ∈ universe_)
    (enough : unseen universe_ state ≤ bound) :
    ∃ new, Extends succ state (nodes.foldl visitNode state) new ∧
      (∀ node ∈ nodes, node ∈ (nodes.foldl visitNode state).seen) ∧
        ∀ other ∈ new, ∃ node ∈ nodes, Dag.Reach succ node other := by
  induction nodes generalizing state with
  | nil => exact ⟨[], .refl state, by simp, by simp⟩
  | cons node nodes ih =>
    obtain ⟨new, first, entered, reached, -⟩ :=
      each state node (inside node List.mem_cons_self) enough
    obtain ⟨later, rest, all, from_⟩ := ih (visitNode state node)
      (fun other member => inside other (List.mem_cons_of_mem _ member))
      (Nat.le_trans first.unseen_le enough)
    -- What the first visit leaves stays, and the others add to it.
    refine ⟨new ++ later, first.trans rest, ?_, ?_⟩
    · intro other member
      rcases List.mem_cons.mp member with rfl | member
      · exact rest.mono entered
      · exact all other member
    · intro other member
      rcases List.mem_append.mp member with old | member
      · exact ⟨node, List.mem_cons_self, reached other old⟩
      · obtain ⟨root, place, path⟩ := from_ other member
        exact ⟨root, List.mem_cons_of_mem _ place, path⟩

/-- A visit with room for every node that is still to be entered. -/
theorem visit_spec (closed : ∀ node ∈ universe_, ∀ next ∈ succ node, next ∈ universe_)
    (depth : Nat) : ∀ state node, node ∈ universe_ → unseen universe_ state ≤ depth →
      Visits succ state node (visit succ depth state node) := by
  -- The induction is on the room for recursion, which every entered node uses up by one.
  induction depth with
  | zero =>
    intro state node inside enough
    have entered : node ∈ state.seen := by
      by_contra missing
      have fewer := unseen_enter inside missing
      omega
    exact ⟨[], .refl state, entered, by simp, fun missing => absurd entered missing⟩
  | succ depth ih =>
    intro state node inside enough
    by_cases entered : node ∈ state.seen
    · rw [visit, if_pos entered]
      exact ⟨[], .refl state, entered, by simp, fun missing => absurd entered missing⟩
    · rw [visit, if_neg entered]
      -- Entering the node leaves room for its successors.
      have fewer := unseen_enter inside entered
      obtain ⟨new, below, all, reached⟩ := foldl_visits ih (succ node)
        { state with seen := node :: state.seen } (closed node inside) (by omega)
      have notNew : node ∉ new := fun member => below.fresh node member List.mem_cons_self
      refine ⟨new ++ [node], ⟨?_, ?_, ?_, ?_, ?_⟩, ?_, ?_, fun _ => ⟨new, rfl⟩⟩
      -- What is left behind are the nodes below and the node itself, in this order.
      · simp only [below.post, List.append_assoc]
      · refine List.nodup_append.mpr ⟨below.once, by simp, ?_⟩
        rintro other member _ last rfl
        exact notNew (List.mem_singleton.mp last ▸ member)
      · intro other member
        rcases List.mem_append.mp member with old | last
        · exact fun before => below.fresh other old (List.mem_cons_of_mem _ before)
        · rw [List.mem_singleton.mp last]
          exact entered
      · intro other
        rw [below.seen, List.mem_cons, List.mem_append, List.mem_singleton]
        tauto
      · intro other member next edge
        rcases List.mem_append.mp member with old | last
        · exact below.closed other old next edge
        · rw [List.mem_singleton.mp last] at edge
          exact all next edge
      · exact below.mono List.mem_cons_self
      · intro other member
        rcases List.mem_append.mp member with old | last
        · obtain ⟨root, edge, path⟩ := reached other old
          exact .head edge path
        · rw [List.mem_singleton.mp last]

/-- A search enters no node twice. -/
theorem visit_seen_nodup (depth : Nat) : ∀ (state : State ι) (node : ι), state.seen.Nodup →
    (visit succ depth state node).seen.Nodup := by
  induction depth with
  | zero => exact fun _ _ once => once
  | succ depth ih =>
    intro state node once
    by_cases entered : node ∈ state.seen
    · rw [visit, if_pos entered]
      exact once
    · rw [visit, if_neg entered]
      -- The node is new, and the searches below it keep the list without repetition.
      have steps : ∀ (nodes : List ι) (start : State ι), start.seen.Nodup →
          (nodes.foldl (visit succ depth) start).seen.Nodup := by
        intro nodes
        induction nodes with
        | nil => exact fun _ once => once
        | cons next nodes step => exact fun start once => step _ (ih start next once)
      exact steps (succ node) _ (List.nodup_cons.mpr ⟨entered, once⟩)

/-- On an acyclic graph a visit leaves every node after its successors. -/
theorem visit_ordered (closed : ∀ node ∈ universe_, ∀ next ∈ succ node, next ∈ universe_)
    (acyclic : Dag.Acyclic succ) (depth : Nat) :
    ∀ state node, node ∈ universe_ → unseen universe_ state ≤ depth → Ordered succ state.post →
      OpenReaches succ state node → Ordered succ (visit succ depth state node).post := by
  induction depth with
  | zero => exact fun _ _ _ _ ordered _ => ordered
  | succ depth ih =>
    intro state node inside enough ordered reaches
    by_cases entered : node ∈ state.seen
    · rw [visit, if_pos entered]
      exact ordered
    · rw [visit, if_neg entered]
      have fewer := unseen_enter inside entered
      have room : unseen universe_ { state with seen := node :: state.seen } ≤ depth := by omega
      -- The open nodes are now the ones before and the node itself.
      have opened : ∀ next ∈ succ node,
          OpenReaches succ { state with seen := node :: state.seen } next := by
        intro next edge other member notLeft
        rcases List.mem_cons.mp member with rfl | before
        · exact .single edge
        · exact (reaches other before notLeft).tail edge
      -- The successors are visited in turn, and each visit keeps the order.
      have steps : ∀ (nodes : List ι) (start : State ι), (∀ next ∈ nodes, next ∈ universe_) →
          unseen universe_ start ≤ depth → Ordered succ start.post →
          (∀ next ∈ nodes, OpenReaches succ start next) →
            Ordered succ (nodes.foldl (visit succ depth) start).post := by
        intro nodes
        induction nodes with
        | nil => exact fun _ _ _ ordered _ => ordered
        | cons next nodes step =>
          -- What the visit of one successor leaves allows the visit of the next.
          intro start places room ordered reach
          obtain ⟨new, extends_, -⟩ := visit_spec closed depth start next
            (places next List.mem_cons_self) room
          refine step _ (fun other member => places other (List.mem_cons_of_mem _ member))
            (Nat.le_trans extends_.unseen_le room) ?_ fun other member =>
              extends_.openReaches (reach other (List.mem_cons_of_mem _ member))
          exact ih start next (places next List.mem_cons_self) room ordered
            (reach next List.mem_cons_self)
      have inner := steps (succ node) _ (closed node inside) room ordered opened
      obtain ⟨new, extends_, all, -⟩ :=
        foldl_visits (visit_spec closed depth) (succ node) _ (closed node inside) room
      refine inner.concat fun next edge => ?_
      -- A successor that is still open would close a cycle.
      by_contra notLeft
      rw [extends_.post, List.mem_append, not_or] at notLeft
      have entered := ((extends_.seen next).mp (all next edge)).resolve_right notLeft.2
      rcases List.mem_cons.mp entered with rfl | before
      · exact acyclic next (.single edge)
      · exact acyclic node (.head edge (reaches next before notLeft.1))

/-- A search whose roots include a whole closed universe leaves each of its nodes once. -/
theorem search_perm (once : universe_.Nodup)
    (closed : ∀ node ∈ universe_, ∀ next ∈ succ node, next ∈ universe_) {depth : Nat}
    (enough : universe_.length ≤ depth) {roots : List ι} (inside : ∀ node ∈ roots, node ∈ universe_)
    (all : ∀ node ∈ universe_, node ∈ roots) : (search succ depth roots).post.Perm universe_ := by
  have room : unseen universe_ ⟨[], []⟩ ≤ depth := Nat.le_trans List.countP_le_length enough
  obtain ⟨new, extends_, entered, reached⟩ :=
    foldl_visits (visit_spec closed depth) roots ⟨[], []⟩ inside room
  -- The order of leaving starts empty, so it is what the search adds.
  have post : (search succ depth roots).post = new := by
    rw [search, extends_.post, List.nil_append]
  rw [post, List.perm_ext_iff_of_nodup extends_.once once]
  intro node
  constructor
  -- What was entered is reached from a root, and the universe is closed.
  · intro member
    obtain ⟨root, place, path⟩ := reached node member
    exact reach_inside closed (inside root place) path
  -- Every node is a root, and every root is entered.
  · intro member
    exact ((extends_.seen node).mp (entered node (all node member))).resolve_left (by simp)

/-- On an acyclic graph a search leaves every node after its successors. -/
theorem search_ordered (closed : ∀ node ∈ universe_, ∀ next ∈ succ node, next ∈ universe_)
    (acyclic : Dag.Acyclic succ) {depth : Nat} (enough : universe_.length ≤ depth) {roots : List ι}
    (inside : ∀ node ∈ roots, node ∈ universe_) : Ordered succ (search succ depth roots).post := by
  -- Between two roots no node is open.
  have steps : ∀ (nodes : List ι) (start : State ι), (∀ node ∈ nodes, node ∈ universe_) →
      unseen universe_ start ≤ depth → Ordered succ start.post →
      (∀ node, OpenReaches succ start node) →
        Ordered succ (nodes.foldl (visit succ depth) start).post := by
    intro nodes
    induction nodes with
    | nil => exact fun _ _ _ ordered _ => ordered
    | cons node nodes step =>
      intro start places room ordered reach
      have place := places node List.mem_cons_self
      obtain ⟨new, extends_, -⟩ := visit_spec closed depth start node place room
      refine step _ (fun other member => places other (List.mem_cons_of_mem _ member))
        (Nat.le_trans extends_.unseen_le room) ?_ fun other => extends_.openReaches (reach other)
      exact visit_ordered closed acyclic depth start node place room ordered (reach node)
  refine steps roots ⟨[], []⟩ inside (Nat.le_trans List.countP_le_length enough) ?_ ?_
  · intro front node back split
    simp at split
  -- At the start no node has been entered.
  · intro node other member
    cases member

/-- The first root is left last just when every node can be reached from it. -/
theorem search_last_iff (closed : ∀ node ∈ universe_, ∀ next ∈ succ node, next ∈ universe_)
    {depth : Nat} (enough : universe_.length ≤ depth) {root : ι} {roots : List ι}
    (inside : ∀ node ∈ root :: roots, node ∈ universe_)
    (all : ∀ node ∈ universe_, node ∈ root :: roots) :
    (search succ depth (root :: roots)).post.getLast? = some root ↔
      ∀ node ∈ universe_, Dag.Reach succ root node := by
  have room : unseen universe_ ⟨[], []⟩ ≤ depth := Nat.le_trans List.countP_le_length enough
  obtain ⟨first, tree, entered, reached, last⟩ :=
    visit_spec closed depth ⟨[], []⟩ root (inside root List.mem_cons_self) room
  obtain ⟨later, forest, others, from_⟩ :=
    foldl_visits (visit_spec closed depth) roots (visit succ depth ⟨[], []⟩ root)
      (fun node member => inside node (List.mem_cons_of_mem _ member))
      (Nat.le_trans tree.unseen_le room)
  obtain ⟨front, rfl⟩ := last (by simp)
  have post : (search succ depth (root :: roots)).post = (front ++ [root]) ++ later := by
    rw [search, List.foldl_cons, forest.post, tree.post, List.nil_append]
  -- The tree of the first root is closed, so it holds what the root reaches and nothing else.
  have inTree : ∀ node, node ∈ (visit succ depth ⟨[], []⟩ root).seen ↔ node ∈ front ++ [root] := by
    intro node
    rw [tree.seen]
    simp
  have reachable : ∀ node, node ∈ front ++ [root] ↔ Dag.Reach succ root node := by
    intro node
    refine ⟨reached node, fun path => ?_⟩
    refine reach_inside (fun other member next edge => ?_) ((inTree root).mp entered) path
    exact (inTree next).mp (tree.closed other member next edge)
  constructor
  · intro final node member
    rcases List.eq_nil_or_concat later with rfl | ⟨before, other, rfl⟩
    · -- No further root has started a tree of its own.
      rw [← reachable, ← inTree]
      rcases List.mem_cons.mp (all node member) with rfl | root'
      · exact entered
      · exact ((forest.seen node).mp (others node root')).resolve_right (by simp)
    · rw [post, List.concat_eq_append, ← List.append_assoc, List.getLast?_concat] at final
      obtain rfl := Option.some.inj final
      exact absurd entered (forest.fresh other (by simp))
  -- If everything is reached from the first root, there is nothing left for the others.
  · intro reach
    have none : later = [] := by
      refine List.eq_nil_iff_forall_not_mem.mpr fun node member => ?_
      obtain ⟨other, place, path⟩ := from_ node member
      have within := reach_inside closed (inside other (List.mem_cons_of_mem _ place)) path
      exact forest.fresh node member
        ((inTree node).mpr ((reachable node).mpr (reach node within)))
    rw [post, none, List.append_nil, List.getLast?_concat]

end Search

end Dfs
