import Wirble.Library.Dag
import Mathlib.Algebra.Order.BigOperators.Group.List
import Mathlib.Algebra.Order.Group.Nat
import Mathlib.Algebra.GroupWithZero.Nat

/-! Weights of the nodes of a graph, and what redirecting edges to a lighter node does to them. -/

namespace Dag

variable {ι : Type*} {succ succ' : ι → List ι} {cost : ι → Nat} {weight weight' : ι → Nat}

/-- The weight of a node is its own cost and the weights of its successors, counted as often as
they are referred to. -/
def IsWeight (cost : ι → Nat) (succ : ι → List ι) (weight : ι → Nat) : Prop :=
  IsValuation (fun node inputs => cost node + inputs.sum) succ weight

/-- A weight is the cost of the node and the weights of its successors. -/
theorem IsWeight.eq (weighs : IsWeight cost succ weight) (node : ι) :
    weight node = cost node + ((succ node).map weight).sum := weighs node

/-- A node weighs at least its own cost. -/
theorem IsWeight.cost_le (weighs : IsWeight cost succ weight) (node : ι) :
    cost node ≤ weight node := by
  rw [weighs.eq]
  omega

section Redirect

variable {move : ι → ι} {old : ι}

/-- Redirecting edges to a lighter node makes no node heavier. -/
theorem IsWeight.le (weighs : IsWeight cost succ weight) (weighs' : IsWeight cost succ' weight')
    (grounded : Grounded succ) (moved : ∀ node, succ' node = (succ node).map move)
    (kept : ∀ node, node ≠ old → move node = node) (lighter : weight' (move old) < weight old)
    (node : ι) : weight' node ≤ weight node := by
  -- The weight is one more than those of the successors, none of which grows.
  refine weighs.related (fun heavy light => light ≤ heavy) weighs' grounded moved kept
    (fun node inputs inputs' below => ?_) (Nat.le_of_lt lighter) node
  have sums := below.flip.sum_le_sum
  omega

/-- Redirecting edges to a lighter node makes every node above them lighter. -/
theorem IsWeight.lt (weighs : IsWeight cost succ weight) (weighs' : IsWeight cost succ' weight')
    (grounded : Grounded succ) (moved : ∀ node, succ' node = (succ node).map move)
    (kept : ∀ node, node ≠ old → move node = node) (lighter : weight' (move old) < weight old)
    {node : ι} (above : Relation.TransGen (Edge succ) node old) : weight' node < weight node := by
  have each : ∀ target, (weight' ∘ move) target ≤ weight target := by
    intro target
    by_cases hit : target = old
    · rw [hit]
      exact Nat.le_of_lt lighter
    · rw [Function.comp_apply, kept target hit]
      exact weighs.le weighs' grounded moved kept lighter target
  -- A node is lighter as soon as one of the nodes it refers to now is.
  have parent : ∀ node target, Edge succ node target → (weight' ∘ move) target < weight target →
      weight' node < weight node := by
    intro node target edge less
    rw [weighs.eq, weighs'.eq, moved, List.map_map]
    have inputs : ((succ node).map (weight' ∘ move)).sum < ((succ node).map weight).sum :=
      List.sum_lt_sum _ _ (fun target _ => each target) ⟨target, edge, less⟩
    omega
  -- From the parent the difference climbs edge by edge.
  induction above using Relation.TransGen.head_induction_on with
  | @single node edge => exact parent node old edge lighter
  | @head node middle edge _ next =>
    refine parent node middle edge ?_
    by_cases hit : middle = old
    · rw [hit]
      exact lighter
    · rw [Function.comp_apply, kept middle hit]
      exact next

end Redirect

end Dag
