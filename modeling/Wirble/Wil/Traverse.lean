import Mathlib.Data.List.ReduceOption
import Wirble.Wil.Rewire
import Wirble.Library.Bfs

/-! The four graph traversals visit what a node depends on, each node once. -/

namespace Wirble

namespace WILContext

/-- The nodes that the input slots of a node point at, null slots left out. -/
def inputs (ctx : WILContext) (node : Nat) : List Nat := (ctx.targets node).reduceOption

/-- All nodes were created by one context, and no slot leaves it. -/
structure OneContext (ctx : WILContext) : Prop where
  identified : ∀ (ref : Nat) (node : WILNode), ctx.graph[ref]? = some node →
    node.id = ref + 1 ∧ node.context = ctx.self
  closed : ctx.Closed

end WILContext

/-- Every sequence of graph calls leaves the nodes in one context. -/
theorem DefUse.oneContext {ctx : WILContext} (consistent : DefUse ctx) : ctx.OneContext :=
  ⟨consistent.identified, consistent.closed⟩

/-- A store into an array, which fails outside of it. -/
def storeAt {α : Type} (array : List α) (index : Nat) (value : α) : Option (List α) :=
  if index < array.length then some (array.set index value) else none

variable {σ : Type}

/-- The flags of a traversal by node id, and the data of its visitor. -/
structure WILVisit (σ : Type) where
  visited : List Bool
  data : σ

/-- `wil_visit_depth_first`. The number bounds the depth of the recursion, and using it up is a
failure, as is an access outside the flags. -/
def wilVisitDepthFirst (ctx : WILContext) (visitor : σ → Nat → Option σ) (postorder : Bool) :
    Nat → WILVisit σ → Option Nat → Option (WILVisit σ)
  | 0, _, _ => none
  | _ + 1, state, none => some state
  | fuel + 1, state, some node => do
    let stored ← ctx.graph[node]?
    if ← state.visited[stored.id]? then return state
    let visited ← storeAt state.visited stored.id true
    let data ← if postorder then some state.data else visitor state.data node
    let inner ← (stored.inputs.map (·.node)).foldlM (wilVisitDepthFirst ctx visitor postorder fuel)
      ⟨visited, data⟩
    let data ← if postorder then visitor inner.data node else some inner.data
    return { inner with data }

/-- The common body of the two depth-first traversals. -/
def wilTraverseDepthFirst (ctx : WILContext) (postorder : Bool) (fuel : Nat) (start : Option Nat)
    (visitor : σ → Nat → Option σ) (data : σ) : Option σ :=
  match start with
  | none => some data
  | some start => do
    let visited := List.replicate (ctx.graph.length + 1) false
    let state ← wilVisitDepthFirst ctx visitor postorder fuel ⟨visited, data⟩ (some start)
    return state.data

/-- Visit every node before its inputs. -/
def wilGraphTraverseDfs (ctx : WILContext) (fuel : Nat) (start : Option Nat)
    (visitor : σ → Nat → Option σ) (data : σ) : Option σ :=
  wilTraverseDepthFirst ctx false fuel start visitor data

/-- Visit every node after its inputs. -/
def wilGraphTraversePostorder (ctx : WILContext) (fuel : Nat) (start : Option Nat)
    (visitor : σ → Nat → Option σ) (data : σ) : Option σ :=
  wilTraverseDepthFirst ctx true fuel start visitor data

/-- The work arrays of the breadth-first traversal and the data of its visitor. -/
structure WILBreadthFirst (σ : Type) where
  queue : List (Option Nat)
  visited : List Bool
  head : Nat
  tail : Nat
  data : σ

/-- The loop body over the input slots: flag and append an input that is new. -/
def wilEnqueueInput (ctx : WILContext) (state : WILBreadthFirst σ) :
    Option Nat → Option (WILBreadthFirst σ)
  | none => some state
  | some input => do
    let stored ← ctx.graph[input]?
    if ← state.visited[stored.id]? then return state
    let visited ← storeAt state.visited stored.id true
    let queue ← storeAt state.queue state.tail (some input)
    return { state with visited, queue, tail := state.tail + 1 }

/-- The loop over the queue, bounded by the given number of tests of its condition. -/
def wilBreadthFirstLoop (ctx : WILContext) (visitor : σ → Nat → Option σ) :
    Nat → WILBreadthFirst σ → Option (WILBreadthFirst σ)
  | 0, _ => none
  | fuel + 1, state =>
    if state.head < state.tail then do
      let node ← (state.queue[state.head]?).join
      let data ← visitor state.data node
      let stored ← ctx.graph[node]?
      let scanned ← (stored.inputs.map (·.node)).foldlM (wilEnqueueInput ctx)
        { state with head := state.head + 1, data }
      wilBreadthFirstLoop ctx visitor fuel scanned
    else some state

/-- Visit the nodes in the order in which a queue finds them. -/
def wilGraphTraverseBfs (ctx : WILContext) (fuel : Nat) (start : Option Nat)
    (visitor : σ → Nat → Option σ) (data : σ) : Option σ :=
  match start with
  | none => some data
  | some start => do
    let stored ← ctx.graph[start]?
    let queue ← storeAt (List.replicate (ctx.graph.length + 1) none) 0 (some start)
    let visited ← storeAt (List.replicate (ctx.graph.length + 1) false) stored.id true
    let state ← wilBreadthFirstLoop ctx visitor fuel { queue, visited, head := 0, tail := 1, data }
    return state.data

/-- The array that a postorder traversal fills. -/
structure WILPostorderCollector where
  nodes : List (Option Nat)
  count : Nat

/-- The visitor that fills it, which fails when the array is full. -/
def wilCollectPostorder (collector : WILPostorderCollector) (node : Nat) :
    Option WILPostorderCollector := do
  let nodes ← storeAt collector.nodes collector.count (some node)
  return { nodes, count := collector.count + 1 }

/-- The loop that visits the collected nodes from the last to the first. -/
def wilReplayReverse (nodes : List (Option Nat)) (visitor : σ → Nat → Option σ) :
    Nat → σ → Option σ
  | 0, data => some data
  | index + 1, data => do
    let node ← (nodes[index]?).join
    let data ← visitor data node
    wilReplayReverse nodes visitor index data

/-- Visit the nodes in the reverse of their postorder. -/
def wilGraphTraverseRpo (ctx : WILContext) (fuel : Nat) (start : Option Nat)
    (visitor : σ → Nat → Option σ) (data : σ) : Option σ :=
  match start with
  | none => some data
  | some start => do
    let nodes := List.replicate ctx.graph.length none
    let collector ← wilGraphTraversePostorder ctx fuel (some start) wilCollectPostorder
      { nodes, count := 0 }
    wilReplayReverse collector.nodes visitor collector.count data

namespace WILContext

variable {ctx : WILContext}

/-- The inputs of a node are the targets that are not null. -/
@[simp]
theorem mem_inputs (node input : Nat) :
    input ∈ ctx.inputs node ↔ some input ∈ ctx.targets node := by
  simp [inputs, List.reduceOption_mem_iff]

/-- The nodes of a closed graph are closed under inputs. -/
theorem Closed.range (closed : ctx.Closed) :
    ∀ node ∈ List.range ctx.graph.length, ∀ input ∈ ctx.inputs node,
      input ∈ List.range ctx.graph.length := by
  intro node _ input edge
  exact List.mem_range.mpr (closed node input ((mem_inputs node input).mp edge))

/-- A path along inputs is a path along pointers. -/
theorem Acyclic.inputs (acyclic : ctx.Acyclic) : Dag.Acyclic ctx.inputs := by
  intro node cycle
  refine acyclic (some node) (cycle.lift some fun source target edge => ?_)
  exact (mem_inputs source target).mp edge

/-- The flags of a traversal stand for the nodes it has entered. -/
structure Flags (ctx : WILContext) (visited : List Bool) (seen : List Nat) : Prop where
  size : visited.length = ctx.graph.length + 1
  flag : ∀ node < ctx.graph.length, visited[node + 1]? = some (decide (node ∈ seen))

/-- Before the start no node has been entered. -/
theorem Flags.start (ctx : WILContext) :
    ctx.Flags (List.replicate (ctx.graph.length + 1) false) [] where
  size := List.length_replicate
  flag node inside := by simp [inside]

/-- Flagging a node records it among the entered ones. -/
theorem Flags.enter {visited : List Bool} {seen seen' : List Nat} (flags : ctx.Flags visited seen)
    {node : Nat} (inside : node < ctx.graph.length)
    (more : ∀ other, other ∈ seen' ↔ other = node ∨ other ∈ seen) :
    storeAt visited (node + 1) true = some (visited.set (node + 1) true) ∧
      ctx.Flags (visited.set (node + 1) true) seen' := by
  refine ⟨if_pos (by rw [flags.size]; omega), by rw [List.length_set, flags.size], ?_⟩
  intro other place
  -- Only the flag of the node itself has changed.
  by_cases same : other = node
  · subst same
    rw [List.getElem?_set_self (by rw [flags.size]; omega),
      decide_eq_true ((more other).mpr (.inl rfl))]
  · rw [List.getElem?_set_ne (by omega), flags.flag other place]
    have iff : other ∈ seen' ↔ other ∈ seen := by
      rw [more]
      exact or_iff_right same
    simp only [iff]

end WILContext

open WILContext

section DepthFirst

variable {ctx : WILContext} {visitor : σ → Nat → Option σ} {postorder : Bool}

/-- The nodes that a search adds, in the order in which the visitor is called on them. -/
def Added (postorder : Bool) (before after : Dfs.State Nat) (order : List Nat) : Prop :=
  if postorder then after.post = before.post ++ order else after.seen = order.reverse ++ before.seen

/-- Nothing is added by a search that enters nothing. -/
theorem Added.refl (postorder : Bool) (state : Dfs.State Nat) : Added postorder state state [] := by
  cases postorder <;> simp [Added]

/-- What two searches add one after the other is added by both together. -/
theorem Added.trans {before middle after : Dfs.State Nat} {first rest : List Nat}
    (left : Added postorder before middle first) (right : Added postorder middle after rest) :
    Added postorder before after (first ++ rest) := by
  cases postorder <;> simp_all [Added]

/-- A run on the flags of one search state ends on the flags of another and calls the visitor on
the nodes added in between. -/
def Follows (ctx : WILContext) (visitor : σ → Nat → Option σ) (postorder : Bool)
    (before after : Dfs.State Nat) (run : WILVisit σ → Option (WILVisit σ)) : Prop :=
  ∀ visited, ctx.Flags visited before.seen → ∃ visited' order, ctx.Flags visited' after.seen ∧
    Added postorder before after order ∧
      ∀ data, run ⟨visited, data⟩ = (order.foldlM visitor data).map (⟨visited', ·⟩)

/-- A run that changes nothing follows a search that adds nothing. -/
theorem Follows.refl (state : Dfs.State Nat) :
    Follows ctx visitor postorder state state some := by
  intro visited flags
  exact ⟨visited, [], flags, .refl postorder state, fun data => by simp⟩

/-- Two runs in turn follow two searches in turn. -/
theorem Follows.trans {before middle after : Dfs.State Nat}
    {first second : WILVisit σ → Option (WILVisit σ)}
    (left : Follows ctx visitor postorder before middle first)
    (right : Follows ctx visitor postorder middle after second) :
    Follows ctx visitor postorder before after fun state => first state >>= second := by
  intro visited flags
  obtain ⟨between, order, flags, added, calls⟩ := left visited flags
  obtain ⟨last, rest, flags, more, callsMore⟩ := right between flags
  refine ⟨last, order ++ rest, flags, added.trans more, fun data => ?_⟩
  simp only [calls, List.foldlM_append]
  -- Where a call of the visitor fails, both sides fail.
  cases order.foldlM visitor data with
  | none => rfl
  | some data => exact callsMore data

/-- The loop over the slots follows the search from the inputs: a null slot has no effect. -/
theorem follows_slots {depth fuel : Nat}
    {visitSlot : WILVisit σ → Option Nat → Option (WILVisit σ)}
    (null : ∀ state, visitSlot state none = some state)
    (each : ∀ (state : Dfs.State Nat) (node : Nat), node < ctx.graph.length →
      Dfs.unseen (List.range ctx.graph.length) state ≤ depth →
      Follows ctx visitor postorder state (Dfs.visit ctx.inputs fuel state node)
        (visitSlot · (some node)))
    (visits : ∀ state node, node ∈ List.range ctx.graph.length →
      Dfs.unseen (List.range ctx.graph.length) state ≤ depth →
      Dfs.Visits ctx.inputs state node (Dfs.visit ctx.inputs fuel state node))
    (slots : List (Option Nat)) (state : Dfs.State Nat)
    (inside : ∀ input, some input ∈ slots → input < ctx.graph.length)
    (enough : Dfs.unseen (List.range ctx.graph.length) state ≤ depth) :
    Follows ctx visitor postorder state
      (slots.reduceOption.foldl (Dfs.visit ctx.inputs fuel) state) (slots.foldlM visitSlot) := by
  -- The induction is on the slots, of which only those with an input are searched.
  induction slots generalizing state with
  | nil => exact .refl state
  | cons slot slots ih =>
    have places : ∀ input, some input ∈ slots → input < ctx.graph.length := fun input member =>
      inside input (List.mem_cons_of_mem _ member)
    cases slot with
    | none =>
      have rest := ih state places enough
      simpa only [List.foldlM_cons, null, Option.bind_eq_bind, Option.bind_some,
        List.reduceOption_cons_of_none] using rest
    | some input =>
      -- The slot's input is visited, and the rest follows from the state it leaves.
      have place := inside input List.mem_cons_self
      obtain ⟨new, extends_, -⟩ := visits state input (List.mem_range.mpr place) enough
      have rest := ih _ places (Nat.le_trans extends_.unseen_le enough)
      simpa only [List.reduceOption_cons_of_some, List.foldl_cons, List.foldlM_cons] using
        (each state input place enough).trans rest

/-- A depth-first visit follows the search from its node. -/
theorem follows_wilVisitDepthFirst (one : ctx.OneContext) (depth : Nat) :
    ∀ (state : Dfs.State Nat) (node : Nat), node < ctx.graph.length →
      Dfs.unseen (List.range ctx.graph.length) state ≤ depth →
      Follows ctx visitor postorder state (Dfs.visit ctx.inputs depth state node)
        (wilVisitDepthFirst ctx visitor postorder (depth + 1) · (some node)) := by
  -- A node that was entered before is left alone at any depth.
  have skip : ∀ {fuel : Nat} {state : Dfs.State Nat} {node : Nat}, node < ctx.graph.length →
      node ∈ state.seen → Follows ctx visitor postorder state state
        (wilVisitDepthFirst ctx visitor postorder (fuel + 1) · (some node)) := by
    intro fuel state node inside entered visited flags
    have stored := List.getElem?_eq_getElem inside
    have id := (one.identified node _ stored).1
    refine ⟨visited, [], flags, .refl postorder state, fun data => ?_⟩
    simp [wilVisitDepthFirst, stored, id, flags.flag node inside, entered]
  -- The induction is on the room for recursion, as in the search itself.
  induction depth with
  | zero =>
    intro state node inside enough
    -- Without room for recursion the node has been entered already.
    have entered : node ∈ state.seen := by
      by_contra missing
      have fewer := Dfs.unseen_enter (List.mem_range.mpr inside) missing
      omega
    exact skip inside entered
  | succ depth ih =>
    intro state node inside enough
    by_cases entered : node ∈ state.seen
    · rw [Dfs.visit, if_pos entered]
      exact skip inside entered
    · rw [Dfs.visit, if_neg entered]
      intro visited flags
      -- The record of the node has its id and its slots.
      have stored := List.getElem?_eq_getElem inside
      have id := (one.identified node _ stored).1
      have slots : (ctx.graph[node]).inputs.map (·.node) = ctx.targets node := by
        simp [WILContext.targets, WILContext.slots, stored]
      have fewer := Dfs.unseen_enter (List.mem_range.mpr inside) entered
      obtain ⟨store, entering⟩ := flags.enter inside (fun other => List.mem_cons)
      obtain ⟨visited', order, flags', added, calls⟩ := follows_slots
        (fun _ => rfl) ih
        (Dfs.visit_spec one.closed.range depth) (ctx.targets node)
        { state with seen := node :: state.seen } (one.closed node) (by omega) _ entering
      refine ⟨visited', if postorder then order ++ [node] else node :: order, flags', ?_,
        fun data => ?_⟩
      -- The node itself comes last in postorder, and first otherwise.
      · cases postorder <;> simp_all [Added, WILContext.inputs]
      · show wilVisitDepthFirst ctx visitor postorder (depth + 1 + 1) _ _ = _
        rw [wilVisitDepthFirst]
        simp only [stored, id, flags.flag node inside, entered, store, slots, decide_false,
          Option.bind_eq_bind, Option.bind_some, Bool.false_eq_true, if_false]
        -- The visitor is called on the node after the loop or before it.
        cases postorder with
        | true =>
          simp only [if_true, calls, List.foldlM_append]
          cases order.foldlM visitor data with
          | none => rfl
          | some data => cases called : visitor data node <;> simp [called]
        | false =>
          simp only [Bool.false_eq_true, if_false, List.foldlM_cons]
          cases visitor data node with
          | none => rfl
          | some data => cases called : order.foldlM visitor data <;> simp [calls, called]

/-- A depth-first traversal calls the visitor on the nodes that the search from the start adds. -/
theorem wilTraverseDepthFirst_calls (one : ctx.OneContext) (postorder : Bool) {start : Nat}
    (inside : start < ctx.graph.length) {depth : Nat} (enough : ctx.graph.length ≤ depth) :
    ∃ order, Added postorder ⟨[], []⟩ (Dfs.visit ctx.inputs depth ⟨[], []⟩ start) order ∧
      ∀ (σ : Type) (visitor : σ → Nat → Option σ) (data : σ),
        wilTraverseDepthFirst ctx postorder (depth + 1) (some start) visitor data =
          order.foldlM visitor data := by
  have room : Dfs.unseen (List.range ctx.graph.length) ⟨[], []⟩ ≤ depth :=
    Nat.le_trans List.countP_le_length (by rwa [List.length_range])
  -- The order is read off the search, so it is the same for every visitor.
  refine ⟨if postorder then (Dfs.visit ctx.inputs depth ⟨[], []⟩ start).post
    else (Dfs.visit ctx.inputs depth ⟨[], []⟩ start).seen.reverse,
    by cases postorder <;> simp [Added], fun σ visitor data => ?_⟩
  obtain ⟨visited', order, -, added, calls⟩ : ∃ visited' order, _ ∧ _ ∧ ∀ data : σ,
      wilVisitDepthFirst ctx visitor postorder (depth + 1) ⟨_, data⟩ (some start) = _ :=
    follows_wilVisitDepthFirst one depth ⟨[], []⟩ start inside room _ (Flags.start ctx)
  have same : order = if postorder then (Dfs.visit ctx.inputs depth ⟨[], []⟩ start).post
      else (Dfs.visit ctx.inputs depth ⟨[], []⟩ start).seen.reverse := by
    cases postorder <;> simp_all [Added]
  rw [← same]
  simp only [wilTraverseDepthFirst, calls]
  cases order.foldlM visitor data <;> rfl

end DepthFirst

section BreadthFirst

variable {ctx : WILContext}

/-- The work arrays hold the queue of the search. -/
structure Queues (ctx : WILContext) (state : WILBreadthFirst σ) (queue : List Nat) : Prop where
  size : state.queue.length = ctx.graph.length + 1
  entries : ∀ index < queue.length, state.queue[index]? = some queue[index]?
  tail : state.tail = queue.length
  flags : ctx.Flags state.visited queue

/-- A scan of one slot appends its input, which there is room for. -/
theorem wilEnqueueInput_queues (one : ctx.OneContext) {state : WILBreadthFirst σ}
    {queue : List Nat} (queues : Queues ctx state queue) (once : queue.Nodup)
    (within : ∀ node ∈ queue, node < ctx.graph.length) {input : Nat}
    (inside : input < ctx.graph.length) :
    ∃ state', wilEnqueueInput ctx state (some input) = some state' ∧
      Queues ctx state' (Bfs.enqueue queue input) ∧ state'.head = state.head ∧
        state'.data = state.data := by
  have stored := List.getElem?_eq_getElem inside
  have id := (one.identified input _ stored).1
  by_cases old : input ∈ queue
  · rw [Bfs.enqueue, if_pos old]
    refine ⟨state, ?_, queues, rfl, rfl⟩
    simp [wilEnqueueInput, stored, id, queues.flags.flag input inside, old]
  · -- Distinct nodes of the graph are no more than its length, so one more entry is free.
    have room : queue.length ≤ ctx.graph.length := by
      have size := (once.subperm fun node member =>
        List.mem_range.mpr (within node member)).length_le
      rwa [List.length_range] at size
    obtain ⟨store, flags⟩ := queues.flags.enter inside
      (show ∀ other, other ∈ queue ++ [input] ↔ _ by simp [or_comm])
    have free : storeAt state.queue state.tail (some input) =
        some (state.queue.set state.tail (some input)) :=
      if_pos (by rw [queues.size, queues.tail]; omega)
    rw [Bfs.enqueue, if_neg old]
    -- The input is marked and stored behind the last entry.
    refine ⟨{ state with
        visited := state.visited.set (input + 1) true
        queue := state.queue.set state.tail (some input)
        tail := state.tail + 1 }, ?_, ⟨?_, ?_, ?_, flags⟩, rfl, rfl⟩
    · simp [wilEnqueueInput, stored, id, queues.flags.flag input inside, old, store, free]
    · rw [List.length_set, queues.size]
    · intro index bound
      rw [List.length_append, List.length_singleton] at bound
      -- The last entry is the input, and the others are as before.
      by_cases last : index = queue.length
      · subst last
        rw [queues.tail, List.getElem?_set_self (by rw [queues.size]; omega),
          List.getElem?_concat_length]
      · rw [queues.tail, List.getElem?_set_ne (by omega), queues.entries index (by omega),
          List.getElem?_append_left (by omega)]
    · simp [queues.tail]

/-- A scan of the slots of a node appends its new inputs. -/
theorem foldlM_wilEnqueueInput_queues (one : ctx.OneContext) (slots : List (Option Nat))
    {state : WILBreadthFirst σ} {queue : List Nat} (queues : Queues ctx state queue)
    (once : queue.Nodup) (within : ∀ node ∈ queue, node < ctx.graph.length)
    (inside : ∀ input, some input ∈ slots → input < ctx.graph.length) :
    ∃ state', slots.foldlM (wilEnqueueInput ctx) state = some state' ∧
      Queues ctx state' (slots.reduceOption.foldl Bfs.enqueue queue) ∧
        state'.head = state.head ∧ state'.data = state.data := by
  -- The queue stays free of duplicates, and within the graph, from slot to slot.
  induction slots generalizing state queue with
  | nil => exact ⟨state, rfl, queues, rfl, rfl⟩
  | cons slot slots ih =>
    have places : ∀ input, some input ∈ slots → input < ctx.graph.length := fun input member =>
      inside input (List.mem_cons_of_mem _ member)
    cases slot with
    | none => exact ih queues once within places
    | some input =>
      -- The input is appended unless it is in the queue already.
      have place := inside input List.mem_cons_self
      obtain ⟨middle, first, queues, head, data⟩ :=
        wilEnqueueInput_queues one queues once within place
      obtain ⟨new, scan, distinct, fresh, -⟩ := Bfs.foldl_enqueue [input] queue
      rw [List.foldl_cons, List.foldl_nil] at scan
      have once' : (Bfs.enqueue queue input).Nodup := by
        rw [scan]
        refine List.nodup_append.mpr ⟨once, distinct, ?_⟩
        rintro node old _ appended rfl
        exact (fresh node appended).2 old
      have within' : ∀ node ∈ Bfs.enqueue queue input, node < ctx.graph.length := by
        intro node member
        rw [scan] at member
        rcases List.mem_append.mp member with old | appended
        · exact within node old
        · rw [List.mem_singleton.mp (fresh node appended).1]
          exact place
      -- The other slots follow from the queue that has grown.
      obtain ⟨state', rest, queues, head', data'⟩ := ih queues once' within' places
      refine ⟨state', ?_, ?_, head'.trans head, data'.trans data⟩
      · rw [List.foldlM_cons, first]
        exact rest
      · rw [List.reduceOption_cons_of_some, List.foldl_cons]
        exact queues

/-- The loop calls the visitor on what the search takes from the queue. -/
theorem wilBreadthFirstLoop_run (one : ctx.OneContext) (visitor : σ → Nat → Option σ) {start : Nat}
    (inside : start < ctx.graph.length) (rounds : Nat) :
    ∀ {state : WILBreadthFirst σ} {queue : List Nat}, Queues ctx state queue →
      Bfs.Progress ctx.inputs start queue state.head →
      ctx.graph.length ≤ rounds + state.head →
      (wilBreadthFirstLoop ctx visitor (rounds + 1) state).map (·.data) =
        ((Bfs.run ctx.inputs rounds queue state.head).drop state.head).foldlM visitor
          state.data := by
  induction rounds with
  | zero =>
    intro state queue queues progress enough
    -- All nodes have been taken, so the condition of the loop is false.
    have size := progress.length_le (List.mem_range.mpr inside) one.closed.range
    rw [List.length_range] at size
    have bound := progress.inside
    have stop : ¬ state.head < state.tail := by rw [queues.tail]; omega
    rw [wilBreadthFirstLoop, if_neg stop, Bfs.run, List.drop_eq_nil_of_le (by omega)]
    rfl
  | succ rounds ih =>
    intro state queue queues progress enough
    by_cases more : state.head < queue.length
    -- The entry taken is a node that is reached, and its record has its slots.
    · have found : queue[state.head]? = some queue[state.head] := List.getElem?_eq_getElem more
      have member := progress.reached _ (List.getElem_mem more)
      have within : ∀ node ∈ queue, node < ctx.graph.length := fun node old =>
        List.mem_range.mp (Dfs.reach_inside one.closed.range (List.mem_range.mpr inside)
          (progress.reached node old))
      have place := within _ (List.getElem_mem more)
      have stored := List.getElem?_eq_getElem place
      have slots : (ctx.graph[queue[state.head]]).inputs.map (·.node) =
          ctx.targets queue[state.head] := by
        simp [WILContext.targets, WILContext.slots, stored]
      have entry : (state.queue[state.head]?).join = some queue[state.head] := by
        rw [queues.entries _ more, found]
        rfl
      have next := progress.step found
      obtain ⟨more_, prefix_⟩ := Bfs.run_append ctx.inputs rounds
        ((ctx.inputs queue[state.head]).foldl Bfs.enqueue queue) (state.head + 1)
      obtain ⟨new, scan, -⟩ := Bfs.foldl_enqueue (ctx.inputs queue[state.head]) queue
      -- The search keeps its queue, so the node taken here is the next one of its result.
      have result : (Bfs.run ctx.inputs rounds
          ((ctx.inputs queue[state.head]).foldl Bfs.enqueue queue) (state.head + 1)).drop
            state.head = queue[state.head] :: (Bfs.run ctx.inputs rounds
          ((ctx.inputs queue[state.head]).foldl Bfs.enqueue queue) (state.head + 1)).drop
            (state.head + 1) := by
        rw [prefix_, scan, List.append_assoc, List.drop_append_of_le_length (by omega),
          List.drop_eq_getElem_cons more, List.cons_append,
          List.drop_append_of_le_length (by omega)]
      rw [Bfs.run, found]
      simp only [result, List.foldlM_cons]
      rw [wilBreadthFirstLoop, if_pos (by rw [queues.tail]; exact more)]
      simp only [entry, stored, slots, Option.bind_eq_bind, Option.bind_some]
      -- A visitor that fails ends both loops.
      cases called : visitor state.data queue[state.head] with
      | none => rfl
      | some data =>
        obtain ⟨state', scanned, queues', head, data'⟩ := foldlM_wilEnqueueInput_queues one
          (ctx.targets queue[state.head])
          (show Queues ctx { state with head := state.head + 1, data } queue from
            ⟨queues.size, queues.entries, queues.tail, queues.flags⟩)
          progress.once within (one.closed _)
        have step := ih queues' (by rw [head]; exact next)
          (by rw [head]; show _ ≤ _ + (_ + 1); omega)
        rw [head, data'] at step
        simp only [Option.bind_some, scanned]
        exact step
    · -- The queue is used up.
      have bound := progress.inside
      have stop : ¬ state.head < state.tail := by rwa [queues.tail]
      have found : queue[state.head]? = none := List.getElem?_eq_none_iff.mpr (by omega)
      have finished : Bfs.run ctx.inputs (rounds + 1) queue state.head = queue := by
        rw [Bfs.run, found]
      rw [wilBreadthFirstLoop, if_neg stop, finished, List.drop_eq_nil_of_le (by omega)]
      rfl

/-- A breadth-first traversal calls the visitor on the queue of the search. -/
theorem wilGraphTraverseBfs_calls (one : ctx.OneContext) {start : Nat}
    (inside : start < ctx.graph.length) {rounds : Nat} (enough : ctx.graph.length ≤ rounds)
    (visitor : σ → Nat → Option σ) (data : σ) :
    wilGraphTraverseBfs ctx (rounds + 1) (some start) visitor data =
      (Bfs.run ctx.inputs rounds [start] 0).foldlM visitor data := by
  -- The start is entered before the loop, in a queue with room for every node.
  have stored := List.getElem?_eq_getElem inside
  have id := (one.identified start _ stored).1
  -- The start is marked, and stored as the first entry.
  obtain ⟨store, flags⟩ := (Flags.start ctx).enter inside
    (show ∀ other, other ∈ [start] ↔ _ by simp)
  have free : storeAt (List.replicate (ctx.graph.length + 1) none) 0 (some start) =
      some ((List.replicate (ctx.graph.length + 1) none).set 0 (some start)) :=
    if_pos (by simp)
  have queues : Queues ctx
      { queue := (List.replicate (ctx.graph.length + 1) none).set 0 (some start)
        visited := (List.replicate (ctx.graph.length + 1) false).set (start + 1) true
        head := 0, tail := 1, data } [start] := by
    refine ⟨by simp, ?_, rfl, flags⟩
    intro index bound
    obtain rfl : index = 0 := by simpa using bound
    simp
  -- From there the loop calls the visitor on what the search takes.
  have calls := wilBreadthFirstLoop_run one visitor inside rounds queues
    (Bfs.Progress.initial ctx.inputs start) (by simpa using enough)
  rw [List.drop_zero] at calls
  rw [← calls, wilGraphTraverseBfs]
  simp only [stored, id, store, free, Option.bind_eq_bind, Option.bind_some]
  cases wilBreadthFirstLoop ctx visitor (rounds + 1) _ <;> rfl

end BreadthFirst

section Reverse

variable {ctx : WILContext}

/-- The collector stores the nodes in the order of the calls while there is room. -/
theorem foldlM_wilCollectPostorder (order front : List Nat) (room : Nat)
    (enough : order.length ≤ room) :
    order.foldlM wilCollectPostorder
        ⟨front.map some ++ List.replicate room none, front.length⟩ =
      some ⟨(front ++ order).map some ++ List.replicate (room - order.length) none,
        (front ++ order).length⟩ := by
  induction order generalizing front room with
  | nil => simp
  | cons node order ih =>
    rw [List.length_cons] at enough
    obtain ⟨room, rfl⟩ := Nat.exists_eq_add_one_of_ne_zero (n := room) (by omega)
    -- The entry behind the collected nodes is free.
    have store : storeAt (front.map some ++ List.replicate (room + 1) none) front.length
        (some node) = some ((front ++ [node]).map some ++ List.replicate room none) := by
      rw [storeAt, if_pos (by simp), List.set_append_right _ _ (by simp)]
      simp [List.replicate_succ]
    have rest := ih (front ++ [node]) room (by omega)
    rw [List.foldlM_cons, wilCollectPostorder]
    simp only [store, Option.bind_eq_bind, Option.bind_some]
    rw [List.length_append, List.length_singleton] at rest
    simpa [Nat.add_comm] using rest

/-- The last loop calls the visitor on the collected nodes in reverse. -/
theorem wilReplayReverse_calls (order : List Nat) (rest : List (Option Nat))
    (visitor : σ → Nat → Option σ) (data : σ) :
    wilReplayReverse (order.map some ++ rest) visitor order.length data =
      order.reverse.foldlM visitor data := by
  induction order using List.reverseRecOn generalizing rest data with
  | nil => rfl
  | append_singleton order node ih =>
    -- The last node collected is at the end of the part that is filled.
    have entry : (((order ++ [node]).map some ++ rest)[order.length]?).join = some node := by
      simp
    rw [List.length_append, List.length_singleton, wilReplayReverse, entry]
    simp only [Option.bind_eq_bind, Option.bind_some, List.reverse_append, List.reverse_singleton,
      List.singleton_append, List.foldlM_cons, List.map_append, List.append_assoc]
    -- The visitor may fail at a node, and then nothing is visited after it.
    cases visitor data node with
    | none => rfl
    | some data => exact ih _ data

/-- A reverse postorder traversal reverses a postorder of at most as many nodes as there are. -/
theorem wilGraphTraverseRpo_calls {fuel start : Nat} {order : List Nat}
    (size : order.length ≤ ctx.graph.length)
    (calls : ∀ (σ : Type) (visitor : σ → Nat → Option σ) (data : σ),
      wilGraphTraversePostorder ctx fuel (some start) visitor data = order.foldlM visitor data)
    (visitor : σ → Nat → Option σ) (data : σ) :
    wilGraphTraverseRpo ctx fuel (some start) visitor data = order.reverse.foldlM visitor data := by
  -- The collecting loop fills the array with the postorder.
  have collected := foldlM_wilCollectPostorder order [] ctx.graph.length size
  rw [List.map_nil, List.nil_append, List.length_nil, List.nil_append] at collected
  simp only [wilGraphTraverseRpo, calls, collected, Option.bind_eq_bind, Option.bind_some]
  exact wilReplayReverse_calls order _ visitor data

end Reverse

/-- The nodes that a traversal calls its visitor on, in this order, whatever the visitor does. -/
def CallsOn (traversal : ∀ {σ : Type}, (σ → Nat → Option σ) → σ → Option σ) (order : List Nat) :
    Prop :=
  ∀ {σ : Type} (visitor : σ → Nat → σ) (data : σ),
    traversal (fun data node => some (visitor data node)) data = some (order.foldl visitor data)

/-- A visitor that cannot fail is called on every node of the order. -/
theorem callsOn_of_foldlM {traversal : ∀ {σ : Type}, (σ → Nat → Option σ) → σ → Option σ}
    {order : List Nat} (calls : ∀ {σ : Type} (visitor : σ → Nat → Option σ) (data : σ),
      traversal visitor data = order.foldlM visitor data) : CallsOn traversal order := by
  intro σ visitor data
  exact (calls _ data).trans List.foldlM_pure

/-- Each traversal, with room to go as deep as there are nodes, calls its visitor once on every
node that the start depends on and on no other, in the order its name says. -/
theorem wilGraphTraverse_exact {ctx : WILContext} (one : ctx.OneContext) {start : Nat}
    (inside : start < ctx.graph.length) {fuel : Nat} (enough : ctx.graph.length < fuel) :
    ∃ dfs postorder bfs : List Nat,
      CallsOn (wilGraphTraverseDfs ctx fuel (some start)) dfs ∧
      CallsOn (wilGraphTraversePostorder ctx fuel (some start)) postorder ∧
      CallsOn (wilGraphTraverseBfs ctx fuel (some start)) bfs ∧
      CallsOn (wilGraphTraverseRpo ctx fuel (some start)) postorder.reverse ∧
      (∀ order ∈ [dfs, postorder, bfs, postorder.reverse],
        order.Nodup ∧ ∀ node, node ∈ order ↔ Dag.Reach ctx.inputs start node) ∧
      bfs.Pairwise (Bfs.distance ctx.inputs start · ≤ Bfs.distance ctx.inputs start ·) ∧
      (ctx.Acyclic → Dfs.Ordered ctx.inputs postorder) := by
  obtain ⟨depth, rfl⟩ := Nat.exists_eq_add_one_of_ne_zero (n := fuel) (by omega)
  have member : start ∈ List.range ctx.graph.length := List.mem_range.mpr inside
  have room : Dfs.unseen (List.range ctx.graph.length) ⟨[], []⟩ ≤ depth :=
    Nat.le_trans List.countP_le_length (by rw [List.length_range]; omega)
  -- What the search from the start enters and leaves is what can be reached.
  obtain ⟨new, extends_, entered, reached, -⟩ :=
    Dfs.visit_spec one.closed.range depth ⟨[], []⟩ start member room
  have left : (Dfs.visit ctx.inputs depth ⟨[], []⟩ start).post = new := by
    rw [extends_.post, List.nil_append]
  have seen : ∀ node, node ∈ (Dfs.visit ctx.inputs depth ⟨[], []⟩ start).seen ↔ node ∈ new := by
    intro node
    rw [extends_.seen]
    simp
  have reach : ∀ node, node ∈ new ↔ Dag.Reach ctx.inputs start node := by
    intro node
    refine ⟨reached node, ?_⟩
    refine Dfs.reach_inside (fun other old next edge => ?_) ((seen start).mp entered)
    exact (seen next).mp (extends_.closed other old next edge)
  have deep : ctx.graph.length ≤ depth := by omega
  -- The two depth-first orders are what the search enters and leaves.
  obtain ⟨dfs, preAdded, dfsCalls⟩ := wilTraverseDepthFirst_calls one false inside deep
  obtain ⟨postorder, postAdded, postCalls⟩ := wilTraverseDepthFirst_calls one true inside deep
  obtain rfl : postorder = new := by simpa [Added, left] using postAdded.symm
  have preSeen : dfs = (Dfs.visit ctx.inputs depth ⟨[], []⟩ start).seen.reverse := by
    simpa [Added] using (congrArg List.reverse preAdded).symm
  -- The breadth-first order is the queue of its search, which grows no longer than the graph.
  have progress := (Bfs.Progress.initial ctx.inputs start).run member one.closed.range depth
    (by rw [List.length_range]; omega)
  have size : postorder.length ≤ ctx.graph.length := by
    have bound := (extends_.once.subperm fun node old =>
      Dfs.reach_inside one.closed.range member (reached node old)).length_le
    rwa [List.length_range] at bound
  refine ⟨dfs, postorder, Bfs.run ctx.inputs depth [start] 0,
    callsOn_of_foldlM (dfsCalls _), callsOn_of_foldlM (postCalls _),
    callsOn_of_foldlM (wilGraphTraverseBfs_calls one inside (by omega)),
    callsOn_of_foldlM (wilGraphTraverseRpo_calls size postCalls), ?_, progress.sorted, ?_⟩
  -- Each order lists what can be reached once.
  · intro order one_
    simp only [List.mem_cons, List.not_mem_nil, or_false] at one_
    rcases one_ with rfl | rfl | rfl | rfl
    · refine ⟨?_, fun node => ?_⟩
      · rw [preSeen]
        exact List.nodup_reverse.mpr (Dfs.visit_seen_nodup depth _ start List.nodup_nil)
      · rw [preSeen, List.mem_reverse, seen, reach]
    · exact ⟨extends_.once, reach⟩
    · exact ⟨progress.once, progress.mem_iff⟩
    · exact ⟨List.nodup_reverse.mpr extends_.once, fun node => by rw [List.mem_reverse, reach]⟩
  -- The postorder is ordered on an acyclic graph.
  · intro acyclic
    rw [← left]
    refine Dfs.visit_ordered one.closed.range acyclic.inputs depth _ start member room ?_ ?_
    · intro front node back split
      simp at split
    · intro other old
      cases old

/-- An addition of itself and a negation that is taken of the addition. -/
def cyclicContext : WILContext :=
  let ctx := (wilNodeCreate (WILContext.empty 0) .add .i32 none).1
  let ctx := (wilNodeCreate ctx .neg .i32 none).1
  let ctx := wilNodeAddInput ctx 0 (some 0) .data
  let ctx := wilNodeAddInput ctx 0 (some 1) .data
  let ctx := wilNodeAddInput ctx 0 none .data
  wilNodeAddInput ctx 1 (some 0) .data

/-- The graph with a cycle has one context. -/
theorem cyclicContext_oneContext : cyclicContext.OneContext := by
  refine DefUse.oneContext (.addInput (.addInput (.addInput (.addInput (.create (.create
    (defUse_empty 0) ..) ..) ?_ ?_ _) ?_ ?_ _) ?_ ?_ _) ?_ ?_ _) <;> decide

/-- On a cyclic graph the traversal ends after one call for each of the two nodes. -/
theorem wilGraphTraverse_exact_cyclic :
    ∃ order, CallsOn (wilGraphTraverseBfs cyclicContext 3 (some 0)) order ∧ order.Nodup ∧
      ∀ node, node ∈ order ↔ Dag.Reach cyclicContext.inputs 0 node := by
  obtain ⟨dfs, postorder, bfs, -, -, calls, -, all, -⟩ :=
    wilGraphTraverse_exact cyclicContext_oneContext
      (show 0 < cyclicContext.graph.length by decide)
      (show cyclicContext.graph.length < 3 by decide)
  exact ⟨bfs, calls, all bfs (by simp)⟩

end Wirble
