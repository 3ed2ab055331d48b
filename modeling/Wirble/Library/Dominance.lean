import Mathlib.Logic.Basic

/-! Dominance in a flow graph, and the graphs that a numbering by ones dominates. -/

namespace Wirble.Dominance

section Graph

variable {α : Type*} {edge : α → α → Prop} {entry : α}

/-- A path from the entry, with the nodes it visits listed from its end back to the entry. -/
inductive Path (edge : α → α → Prop) (entry : α) : List α → α → Prop where
  | start : Path edge entry [entry] entry
  | step {visited : List α} {node next : α} (path : Path edge entry visited node)
      (forward : edge node next) : Path edge entry (next :: visited) next

/-- The nodes that some path ends in. -/
def Reaches (edge : α → α → Prop) (entry node : α) : Prop :=
  ∃ visited, Path edge entry visited node

/-- Every path to the node goes through the dominator. -/
def Dominates (edge : α → α → Prop) (entry dominator node : α) : Prop :=
  ∀ visited, Path edge entry visited node → dominator ∈ visited

/-- The strict dominator that all strict dominators dominate. -/
structure Immediate (edge : α → α → Prop) (entry dominator node : α) : Prop where
  strict : dominator ≠ node
  dominates : Dominates edge entry dominator node
  nearest : ∀ other, other ≠ node → Dominates edge entry other node →
    Dominates edge entry other dominator

/-- The entry reaches itself. -/
theorem reaches_entry : Reaches edge entry entry := ⟨[entry], .start⟩

/-- What has an edge from a reached node is reached. -/
theorem Reaches.step {node next : α} (reaches : Reaches edge entry node)
    (forward : edge node next) : Reaches edge entry next := by
  obtain ⟨visited, path⟩ := reaches
  exact ⟨next :: visited, path.step forward⟩

/-- A path can be cut at any node it visits. -/
theorem Path.reaches {visited : List α} {node : α} (path : Path edge entry visited node) :
    ∀ earlier ∈ visited, Reaches edge entry earlier := by
  -- The last node is where the path itself ends, and the others lie on the path before it.
  induction path with
  | start =>
    intro earlier member
    rw [List.mem_singleton.mp member]
    exact reaches_entry
  | step path forward ih =>
    intro earlier member
    cases member with
    | head => exact ⟨_, path.step forward⟩
    | tail _ before => exact ih earlier before

/-- A dominator of a reachable node is reachable. -/
theorem Dominates.reaches {dominator node : α} (dominates : Dominates edge entry dominator node)
    (reaches : Reaches edge entry node) : Reaches edge entry dominator := by
  obtain ⟨visited, path⟩ := reaches
  exact path.reaches dominator (dominates visited path)

/-- Only the entry dominates the entry. -/
theorem Dominates.of_entry {dominator : α} (dominates : Dominates edge entry dominator entry) :
    dominator = entry :=
  -- The path that has not left the entry visits nothing else.
  List.mem_singleton.mp (dominates [entry] .start)

/-- A dominator of a node other than itself dominates every node with an edge to it. -/
theorem Dominates.before {dominator node next : α}
    (dominates : Dominates edge entry dominator next) (strict : dominator ≠ next)
    (forward : edge node next) : Dominates edge entry dominator node := by
  -- A path to the earlier node that avoids the dominator could be extended by the edge.
  intro visited path
  cases dominates (next :: visited) (path.step forward) with
  | head => exact absurd rfl strict
  | tail _ before => exact before

end Graph

section Numbered

variable {edge : Nat → Nat → Prop}

/-- No edge out of a reachable node skips a number on its way up. -/
def ClimbsByOne (edge : Nat → Nat → Prop) : Prop :=
  ∀ node next, Reaches edge 0 node → edge node next → next ≤ node + 1

/-- A path that climbs by ones visits every number below its end. -/
theorem ClimbsByOne.visits (climbs : ClimbsByOne edge) {visited : List Nat} {node : Nat}
    (path : Path edge 0 visited node) : ∀ below, below ≤ node → below ∈ visited := by
  induction path with
  | start =>
    intro below least
    have zero : below = 0 := by omega
    rw [zero]
    exact List.mem_singleton.mpr rfl
  | @step visited node next path forward ih =>
    intro below bound
    -- The new end is at most one higher, so what lies below it was visited before.
    have reach := climbs node next ⟨visited, path⟩ forward
    by_cases last : below = next
    · rw [last]
      exact List.mem_cons_self
    · apply List.mem_cons_of_mem
      exact ih below (by omega)

/-- A path that climbs by ones enters a number above zero from the number below it. -/
theorem ClimbsByOne.edge_below (climbs : ClimbsByOne edge) {visited : List Nat} {node : Nat}
    (path : Path edge 0 visited node) : ∀ below, below < node → edge below (below + 1) := by
  induction path with
  | start =>
    intro below bound
    omega
  | @step visited node next path forward ih =>
    intro below bound
    have reach := climbs node next ⟨visited, path⟩ forward
    -- Either an earlier edge passed this number already, or the last edge does.
    by_cases earlier : below < node
    · exact ih below earlier
    · have source : node = below := by omega
      have target : next = below + 1 := by omega
      rw [← target, ← source]
      exact forward

/-- Where the edges climb by ones, each node is immediately dominated by the one before it. -/
theorem ClimbsByOne.immediate (climbs : ClimbsByOne edge) {node : Nat}
    (reaches : Reaches edge 0 (node + 1)) : Immediate edge 0 node (node + 1) where
  strict := by omega
  dominates := by
    intro visited path
    -- Each path climbs through all nodes below its end.
    exact climbs.visits path node (by omega)
  nearest := by
    intro other strict dominates
    -- Any other dominator is on the path that goes up one by one.
    obtain ⟨visited, path⟩ := reaches
    exact dominates.before strict (climbs.edge_below path node (by omega))

/-- If each node is immediately dominated by the one before it, dominators have smaller numbers. -/
theorem Dominates.le (chain : ∀ node, Reaches edge 0 (node + 1) → Immediate edge 0 node (node + 1))
    {dominator : Nat} : ∀ node, Reaches edge 0 node → Dominates edge 0 dominator node →
      dominator ≤ node := by
  -- The induction walks down the chain of immediate dominators until the entry is left.
  intro node
  induction node with
  | zero =>
    intro _ dominates
    exact Nat.le_of_eq dominates.of_entry
  | succ node ih =>
    intro reaches dominates
    by_cases itself : dominator = node + 1
    · omega
    · have previous := chain node reaches
      have below := ih (previous.dominates.reaches reaches)
        (previous.nearest dominator itself dominates)
      omega

/-- The numbering lists each node right after its immediate dominator exactly when the edges out
of reachable nodes climb by ones. -/
theorem immediate_previous_iff :
    (∀ node, Reaches edge 0 (node + 1) → Immediate edge 0 node (node + 1)) ↔
      ClimbsByOne edge := by
  refine ⟨fun chain => ?_, fun climbs node reaches => climbs.immediate reaches⟩
  intro node next reaches forward
  apply Classical.byContradiction
  intro skipped
  -- An edge that skips numbers avoids the number just below its target.
  obtain ⟨below, position⟩ : ∃ below, next = below + 1 := ⟨next - 1, by omega⟩
  rw [position] at forward
  have previous := chain below (reaches.step forward)
  have dominates := previous.dominates.before previous.strict forward
  have bound := Dominates.le chain node reaches dominates
  omega

end Numbered

end Wirble.Dominance
