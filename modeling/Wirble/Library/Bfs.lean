import Mathlib.Data.List.Nodup
import Mathlib.Order.Lattice.Nat
import Wirble.Library.Dfs

/-! Breadth-first search: it emits what can be reached once, the nearer nodes before the farther. -/

namespace Bfs

variable {ι : Type*}

/-- A path of the given number of steps. -/
inductive Walk (succ : ι → List ι) (start : ι) : Nat → ι → Prop
  | refl : Walk succ start 0 start
  | tail {steps : Nat} {node next : ι} :
      Walk succ start steps node → next ∈ succ node → Walk succ start (steps + 1) next

/-- The number of steps of a shortest path, and zero where there is no path. -/
noncomputable def distance (succ : ι → List ι) (start node : ι) : Nat :=
  sInf {steps | Walk succ start steps node}

section Distance

variable {succ : ι → List ι} {start node next : ι}

/-- Counting the steps of a path. -/
theorem walk_of_reach (path : Dag.Reach succ start node) : ∃ steps, Walk succ start steps node := by
  induction path with
  | refl => exact ⟨0, .refl⟩
  | tail _ edge ih =>
    obtain ⟨steps, walk⟩ := ih
    exact ⟨steps + 1, walk.tail edge⟩

/-- Forgetting the number of steps of a path. -/
theorem Walk.reach {steps : Nat} (walk : Walk succ start steps node) :
    Dag.Reach succ start node := by
  induction walk with
  | refl => exact .refl
  | tail _ edge ih => exact ih.tail edge

/-- A node that can be reached is reached in as many steps as its distance. -/
theorem distance_walk (path : Dag.Reach succ start node) :
    Walk succ start (distance succ start node) node :=
  Nat.sInf_mem (walk_of_reach path)

/-- No path is shorter than the distance. -/
theorem distance_le {steps : Nat} (walk : Walk succ start steps node) :
    distance succ start node ≤ steps :=
  Nat.sInf_le walk

/-- The start is the one node at distance zero. -/
theorem eq_start_of_distance (path : Dag.Reach succ start node)
    (zero : distance succ start node = 0) : node = start := by
  -- A path without steps ends where it starts.
  have walk := distance_walk path
  rw [zero] at walk
  cases walk
  rfl

/-- One more step goes at most one farther away. -/
theorem distance_step (path : Dag.Reach succ start node) (edge : next ∈ succ node) :
    distance succ start next ≤ distance succ start node + 1 :=
  distance_le ((distance_walk path).tail edge)

/-- Every node other than the start has a predecessor that is one step nearer. -/
theorem distance_pred {steps : Nat} (path : Dag.Reach succ start node)
    (far : distance succ start node = steps + 1) :
    ∃ before, Dag.Reach succ start before ∧ node ∈ succ before ∧
      distance succ start before = steps := by
  -- The node before the last one on a shortest path is reached by a shortest path as well.
  have walk := distance_walk path
  rw [far] at walk
  cases walk with
  | @tail _ before _ walk edge =>
    have near := distance_le walk
    have step := distance_step walk.reach edge
    exact ⟨before, walk.reach, edge, by omega⟩

end Distance

section Search

variable [DecidableEq ι]

/-- Append a node that is not in the queue yet. -/
def enqueue (queue : List ι) (node : ι) : List ι :=
  if node ∈ queue then queue else queue ++ [node]

/-- Take the nodes of the queue one by one, from the given position on, and append their
successors. The queue keeps the nodes that were taken. -/
def run (succ : ι → List ι) : Nat → List ι → Nat → List ι
  | 0, queue, _ => queue
  | rounds + 1, queue, head =>
    match queue[head]? with
    | none => queue
    | some node => run succ rounds ((succ node).foldl enqueue queue) (head + 1)

/-- What a scan of some nodes appends to the queue: those that were not in it, each once. -/
theorem foldl_enqueue (nodes queue : List ι) :
    ∃ new, nodes.foldl enqueue queue = queue ++ new ∧ new.Nodup ∧
      (∀ node ∈ new, node ∈ nodes ∧ node ∉ queue) ∧ ∀ node ∈ nodes, node ∈ queue ++ new := by
  -- The induction is on the nodes scanned, for every queue they meet.
  induction nodes generalizing queue with
  | nil => exact ⟨[], by simp, by simp, by simp, by simp⟩
  | cons first nodes ih =>
    by_cases old : first ∈ queue
    · obtain ⟨new, result, once, fresh, all⟩ := ih queue
      refine ⟨new, by simpa only [List.foldl_cons, enqueue, if_pos old] using result, once, ?_, ?_⟩
      · intro node member
        exact ⟨List.mem_cons_of_mem _ (fresh node member).1, (fresh node member).2⟩
      · intro node member
        rcases List.mem_cons.mp member with rfl | later
        · exact List.mem_append_left _ old
        · exact all node later
    · -- The new node stands between the queue and what the rest of the scan appends.
      obtain ⟨new, result, once, fresh, all⟩ := ih (queue ++ [first])
      refine ⟨first :: new, ?_, ?_, ?_, ?_⟩
      · rw [List.foldl_cons, enqueue, if_neg old, result, List.append_assoc, List.singleton_append]
      · refine List.nodup_cons.mpr ⟨fun member => (fresh first member).2 (by simp), once⟩
      · intro node member
        rcases List.mem_cons.mp member with rfl | later
        · exact ⟨List.mem_cons_self, old⟩
        · refine ⟨List.mem_cons_of_mem _ (fresh node later).1, fun before => ?_⟩
          exact (fresh node later).2 (List.mem_append_left _ before)
      · intro node member
        rcases List.mem_cons.mp member with rfl | later
        · simp
        · simpa using all node later

/-- A search keeps the queue it starts from. -/
theorem run_append (succ : ι → List ι) (rounds : Nat) (queue : List ι) (head : Nat) :
    ∃ new, run succ rounds queue head = queue ++ new := by
  induction rounds generalizing queue head with
  | zero => exact ⟨[], by simp [run]⟩
  | succ rounds ih =>
    cases current : queue[head]? with
    | none => exact ⟨[], by simp [run, current]⟩
    | some node =>
      -- What one node enqueues is appended, and so is what the rest of the search enqueues.
      obtain ⟨new, scan, -⟩ := foldl_enqueue (succ node) queue
      obtain ⟨later, rest⟩ := ih ((succ node).foldl enqueue queue) (head + 1)
      refine ⟨new ++ later, ?_⟩
      simp only [run, current]
      rw [rest, scan, List.append_assoc]

/-- What holds of the queue while a search runs. -/
structure Progress (succ : ι → List ι) (start : ι) (queue : List ι) (head : Nat) : Prop where
  inside : head ≤ queue.length
  once : queue.Nodup
  first : start ∈ queue
  reached : ∀ node ∈ queue, Dag.Reach succ start node
  sorted : queue.Pairwise (distance succ start · ≤ distance succ start ·)
  taken : ∀ node ∈ queue.take head, ∀ next ∈ succ node, next ∈ queue
  near : ∀ current, queue[head]? = some current → ∀ node ∈ queue,
    distance succ start node ≤ distance succ start current + 1

namespace Progress

variable {succ : ι → List ι} {start : ι} {queue : List ι} {head : Nat}

omit [DecidableEq ι] in
/-- A search begins with the start alone. -/
theorem initial (succ : ι → List ι) (start : ι) : Progress succ start [start] 0 where
  inside := Nat.zero_le _
  once := List.nodup_singleton start
  first := List.mem_singleton_self start
  reached node member := by
    rw [List.mem_singleton.mp member]
  sorted := List.pairwise_singleton _ start
  taken := by simp
  near current found node member := by
    -- The start is the only node there is.
    obtain rfl : start = current := by simpa using found
    rw [List.mem_singleton.mp member]
    omega

/-- Nodes nearer than the current one have been taken. -/
theorem mem_take (progress : Progress succ start queue head) {current node : ι}
    (found : queue[head]? = some current) (member : node ∈ queue)
    (nearer : distance succ start node < distance succ start current) :
    node ∈ queue.take head := by
  have split : node ∈ queue.take head ++ queue.drop head := by
    rw [List.take_append_drop]
    exact member
  rcases List.mem_append.mp split with before | after
  · exact before
  · -- What comes later in the queue is at least as far away.
    obtain ⟨bound, value⟩ := List.getElem?_eq_some_iff.mp found
    have sorted := progress.sorted.drop (i := head)
    rw [List.drop_eq_getElem_cons bound, value] at sorted after
    rcases List.mem_cons.mp after with rfl | later
    · omega
    · have far := (List.pairwise_cons.mp sorted).1 node later
      omega

/-- Everything as near as the current node is in the queue. -/
theorem complete (progress : Progress succ start queue head) {current : ι}
    (found : queue[head]? = some current) (steps : Nat) :
    ∀ node, Dag.Reach succ start node → distance succ start node = steps →
      steps ≤ distance succ start current → node ∈ queue := by
  -- Its predecessor is nearer, so it has been taken and all its successors were appended.
  induction steps with
  | zero =>
    intro node path zero _
    rw [eq_start_of_distance path zero]
    exact progress.first
  | succ steps ih =>
    intro node path far bound
    obtain ⟨before, path, edge, near⟩ := distance_pred path far
    have member := ih before path near (by omega)
    exact progress.taken before (progress.mem_take found member (by omega)) node edge

/-- Taking the current node keeps what holds of the queue. -/
theorem step (progress : Progress succ start queue head) {current : ι}
    (found : queue[head]? = some current) :
    Progress succ start ((succ current).foldl enqueue queue) (head + 1) := by
  obtain ⟨new, scan, once, fresh, all⟩ := foldl_enqueue (succ current) queue
  obtain ⟨bound, value⟩ := List.getElem?_eq_some_iff.mp found
  have member : current ∈ queue := List.mem_of_getElem? found
  have path := progress.reached current member
  have reached : ∀ node ∈ new, Dag.Reach succ start node := fun node appended =>
    path.tail (fresh node appended).1
  -- A new node is exactly one step farther away than the current one.
  have exact_ : ∀ node ∈ new, distance succ start node = distance succ start current + 1 := by
    intro node appended
    have upper := distance_step path (fresh node appended).1
    by_contra different
    exact (fresh node appended).2
      (progress.complete found _ node (reached node appended) rfl (by omega))
  have upper : ∀ node ∈ queue ++ new,
      distance succ start node ≤ distance succ start current + 1 := by
    intro node either
    rcases List.mem_append.mp either with old | appended
    · exact progress.near current found node old
    · exact Nat.le_of_eq (exact_ node appended)
  rw [scan]
  -- The queue is sorted by distance, and the new nodes come last.
  have sorted : (queue ++ new).Pairwise (distance succ start · ≤ distance succ start ·) := by
    refine List.pairwise_append.mpr ⟨progress.sorted, ?_, ?_⟩
    · refine List.Pairwise.imp_of_mem ?_ once
      intro left right leftNew rightNew _
      rw [exact_ left leftNew, exact_ right rightNew]
    · intro left old right appended
      rw [exact_ right appended]
      exact progress.near current found left old
  constructor
  · rw [List.length_append]
    omega
  · refine List.nodup_append.mpr ⟨progress.once, once, ?_⟩
    rintro node old _ appended rfl
    exact (fresh node appended).2 old
  · exact List.mem_append_left _ progress.first
  -- Every node is reached, and the successors of the current one are queued now.
  · intro node either
    rcases List.mem_append.mp either with old | appended
    · exact progress.reached node old
    · exact reached node appended
  · exact sorted
  · intro node taken next edge
    rw [List.take_append_of_le_length (by omega), List.take_add_one, found] at taken
    rcases List.mem_append.mp taken with before | last
    · exact List.mem_append_left _ (progress.taken node before next edge)
    · obtain rfl : node = current := by simpa using last
      exact all next edge
  · -- The next node comes after the current one, so it is not nearer.
    intro later place node either
    have ordered : distance succ start current ≤ distance succ start later := by
      obtain ⟨inside, rfl⟩ := List.getElem?_eq_some_iff.mp place
      have within : head < (queue ++ new).length := by omega
      have here : (queue ++ new)[head] = current := by
        rw [List.getElem_append_left bound, value]
      rw [← here]
      exact List.pairwise_iff_getElem.mp sorted head (head + 1) (by omega) inside (by omega)
    have near := upper node either
    omega

omit [DecidableEq ι] in
/-- Distinct nodes of a closed universe are no more than its length. -/
theorem length_le (progress : Progress succ start queue head) {universe_ : List ι}
    (inside : start ∈ universe_)
    (closed : ∀ node ∈ universe_, ∀ next ∈ succ node, next ∈ universe_) :
    queue.length ≤ universe_.length := by
  refine (progress.once.subperm fun node member => ?_).length_le
  exact Dfs.reach_inside closed inside (progress.reached node member)

/-- With room for a round per node of a closed universe, a search takes the whole queue. -/
theorem run {universe_ : List ι} (inside : start ∈ universe_)
    (closed : ∀ node ∈ universe_, ∀ next ∈ succ node, next ∈ universe_) (rounds : Nat) :
    ∀ {queue head}, Progress succ start queue head → universe_.length ≤ rounds + head →
      Progress succ start (run succ rounds queue head) (run succ rounds queue head).length := by
  induction rounds with
  | zero =>
    intro queue head progress enough
    -- No round is left, and the nodes scanned are the whole universe.
    have size := progress.length_le inside closed
    have bound := progress.inside
    obtain rfl : head = queue.length := by omega
    exact progress
  | succ rounds ih =>
    intro queue head progress enough
    cases found : queue[head]? with
    | none =>
      have bound := progress.inside
      -- Nothing is queued behind the head.
      have outside := List.getElem?_eq_none_iff.mp found
      obtain rfl : head = queue.length := by omega
      simp only [Bfs.run, found]
      exact progress
    | some current =>
      simp only [Bfs.run, found]
      exact ih (progress.step found) (by omega)

omit [DecidableEq ι] in
/-- A queue that has been taken as a whole is everything that can be reached. -/
theorem mem_iff (progress : Progress succ start queue queue.length) (node : ι) :
    node ∈ queue ↔ Dag.Reach succ start node := by
  refine ⟨progress.reached node, Dfs.reach_inside ?_ progress.first⟩
  simpa using progress.taken

end Progress

end Search

end Bfs
