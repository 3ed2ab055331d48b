import Wirble.Wil.DefUse
import Wirble.Wil.Semantics

/-! Redirecting slots: which edges and which values a redirected graph has. -/

namespace Wirble

open WILContext

/-- Use lists only record slots, so a consistent graph has no dangling slot. -/
theorem DefUse.closed {ctx : WILContext} (consistent : DefUse ctx) : ctx.Closed := by
  intro user target member
  by_contra outside
  have counted := consistent.counted target user
  rw [usesOf_outside (Nat.not_lt.mp outside), List.count_nil] at counted
  exact List.count_eq_zero.mp counted.symm member

/-- What redirecting every use of one node to another does to a slot. -/
def redirect (oldNode newNode : Nat) (target : Option Nat) : Option Nat :=
  if target = some oldNode then some newNode else target

/-! The loops of `wil_node_replace_all_uses` redirect every slot. -/

/-- Setting the last element of a prefix leaves the shorter prefix alone. -/
theorem set_take_succ {α : Type} (list : List α) (index : Nat) (valid : index < list.length)
    (value : α) : (list.take (index + 1)).set index value = list.take index ++ [value] := by
  induction list generalizing index with
  | nil => simp at valid
  | cons head tail next =>
    -- The element is the head, or one of the tail.
    cases index with
    | zero => simp
    | succ index => simpa using next index (by simpa using valid)

/-- Redirecting the slots of one user replaces the old node by the new one in these slots only. -/
theorem targets_replaceUsesIn (oldNode newNode user : Nat) (index remaining : Nat)
    (ctx : WILContext) (total : index + remaining = (ctx.targets user).length) (other : Nat) :
    (replaceUsesIn oldNode newNode user index remaining ctx).targets other =
      if user = other then
        (ctx.targets user).take index ++
          ((ctx.targets user).drop index).map (redirect oldNode newNode)
      else ctx.targets other := by
  induction remaining generalizing index ctx with
  | zero =>
    -- All slots have been visited.
    have visited : (ctx.targets user).length ≤ index := by omega
    by_cases same : user = other
    · subst same
      simp [replaceUsesIn, List.take_of_length_le visited, List.drop_of_length_le visited]
    · simp [replaceUsesIn, same]
  | succ remaining next =>
    have valid : index < (ctx.targets user).length := by omega
    -- One round sets the slot to its redirected target, whether or not it changes.
    have round : ∀ node, (if ctx.inputAt user index = some oldNode
          then wilNodeReplaceInput ctx user index (some newNode) else ctx).targets node =
        if user = node then
          (ctx.targets user).set index (redirect oldNode newNode (ctx.targets user)[index])
        else ctx.targets node := by
      intro node
      rw [inputAt_of_valid valid]
      -- The slot holds the old node and is set, or holds something else and stays.
      by_cases hit : (ctx.targets user)[index] = some oldNode
      · simp only [hit, if_true, targets_replaceInput, redirect]
        split
        · rename_i same
          rw [same]
        · rfl
      · simp only [hit, if_false, redirect, List.set_getElem_self]
        split
        · rename_i same
          rw [same]
        · rfl
    -- The slots that remain to be visited are still inside.
    have total' : index + 1 + remaining = ((if ctx.inputAt user index = some oldNode
        then wilNodeReplaceInput ctx user index (some newNode) else ctx).targets user).length := by
      rw [round, if_pos rfl, List.length_set]
      omega
    rw [replaceUsesIn, next (index + 1) _ total', round, round]
    by_cases same : user = other
    · subst same
      simp only [if_true]
      -- The visited prefix grows by the redirected slot.
      rw [List.drop_set_of_lt (Nat.lt_succ_self index), List.drop_eq_getElem_cons valid,
        List.map_cons, List.take_set, set_take_succ _ index valid, List.append_assoc]
      rfl
    · simp [same]

/-- Redirecting twice is redirecting once. -/
theorem redirect_idempotent {oldNode newNode : Nat} (distinct : oldNode ≠ newNode)
    (target : Option Nat) :
    redirect oldNode newNode (redirect oldNode newNode target) =
      redirect oldNode newNode target := by
  unfold redirect
  by_cases hit : target = some oldNode
  -- A pointer that was redirected is not redirected again.
  · have other : some newNode ≠ some oldNode := fun equal => distinct (by cases equal; rfl)
    simp [hit]
  · simp [hit]

/-- Redirecting the slots of some users replaces the old node by the new one in theirs only. -/
theorem targets_replaceUsesOf {oldNode newNode : Nat} (distinct : oldNode ≠ newNode)
    (users : List Nat) (ctx : WILContext) (other : Nat) :
    (replaceUsesOf oldNode newNode users ctx).targets other =
      if other ∈ users then (ctx.targets other).map (redirect oldNode newNode)
      else ctx.targets other := by
  induction users generalizing ctx with
  | nil => simp [replaceUsesOf]
  | cons user rest next =>
    have round := targets_replaceUsesIn oldNode newNode user 0 (ctx.inputCount user) ctx
      (by rw [inputCount_eq]; omega)
    rw [replaceUsesOf, next, round]
    by_cases same : user = other
    · subst same
      -- A user that the snapshot names again has nothing left to redirect.
      by_cases again : user ∈ rest
      · simp [again, redirect_idempotent distinct]
      · simp [again]
    · have other_ne : other ≠ user := fun equal => same equal.symm
      simp [same, other_ne]

/-- In a consistent graph every slot that pointed at the old node points at the new one. -/
theorem DefUse.targets_replaceAllUses {ctx : WILContext} (consistent : DefUse ctx)
    (oldNode newNode : Nat) (other : Nat) :
    (wilNodeReplaceAllUses ctx (some oldNode) (some newNode)).targets other =
      (ctx.targets other).map (redirect oldNode newNode) := by
  by_cases equal : oldNode = newNode
  · subst equal
    have identity : redirect oldNode oldNode = id := by
      funext target
      unfold redirect
      split <;> simp_all
    simp [wilNodeReplaceAllUses, identity]
  · simp only [wilNodeReplaceAllUses, equal, if_false]
    rw [targets_replaceUsesOf equal]
    split
    · rfl
    · -- A node outside the use list has no slot that points at the old node.
      rename_i unrecorded
      have counted := consistent.counted oldNode other
      rw [List.count_eq_zero.mpr unrecorded] at counted
      have absent := List.count_eq_zero.mp counted.symm
      have untouched : ∀ target ∈ ctx.targets other, id target = redirect oldNode newNode target := by
        intro target member
        have missed : target ≠ some oldNode := fun hit => absent (hit ▸ member)
        simp [redirect, missed]
      exact (List.map_id _).symm.trans (List.map_congr_left untouched)

/-! Edges and values of a redirected graph. -/

/-- An edge after replacing one input was there before, or is the new input. -/
theorem edge_replaceInput {ctx : WILContext} {node index : Nat} {newInput : Option Nat}
    {source sink : Option Nat}
    (edge : Dag.Edge (wilNodeReplaceInput ctx node index newInput).succ source sink) :
    Dag.Edge ctx.succ source sink ∨ source = some node ∧ sink = newInput := by
  cases source with
  | none => simp [Dag.Edge, succ] at edge
  | some user =>
    simp only [Dag.Edge, succ, targets_replaceInput] at edge ⊢
    split at edge
    · rename_i same
      subst same
      -- A member of the edited list is an old slot or the new one.
      rcases List.mem_or_eq_of_mem_set edge with kept | fresh
      · exact .inl kept
      · exact .inr ⟨rfl, fresh⟩
    · exact .inl edge

/-- An edge after replacing all uses was there before, or leads from a user of the old node to the
new one. -/
theorem DefUse.edge_replaceAllUses {ctx : WILContext} (consistent : DefUse ctx)
    {oldNode newNode : Nat} {source sink : Option Nat}
    (edge : Dag.Edge (wilNodeReplaceAllUses ctx (some oldNode) (some newNode)).succ source sink) :
    Dag.Edge ctx.succ source sink ∨
      sink = some newNode ∧ Dag.Edge ctx.succ source (some oldNode) := by
  cases source with
  | none => simp [Dag.Edge, succ] at edge
  | some user =>
    simp only [Dag.Edge, succ, consistent.targets_replaceAllUses, List.mem_map] at edge ⊢
    obtain ⟨target, member, rfl⟩ := edge
    -- A slot that was redirected had held the old node.
    by_cases hit : target = some oldNode
    · exact .inr ⟨by simp [redirect, hit], hit ▸ member⟩
    · exact .inl (by simpa [redirect, hit] using member)

variable {V : Type} {interp : WILInterp V}

/-- Slots that keep their values keep a valuation. -/
theorem SameNodes.valuation {before after : WILContext} (same : SameNodes before after)
    {value : Option Nat → V} (valuation : before.IsValuation interp value)
    (slots : ∀ user, (after.targets user).map value = (before.targets user).map value) :
    after.IsValuation interp value := by
  -- The values below a node are what its slots hold, and those are unchanged.
  intro pointer
  rw [same.label]
  cases pointer with
  | none => exact valuation none
  | some user =>
    have unchanged : (after.succ (some user)).map value = (before.succ (some user)).map value :=
      slots user
    rw [unchanged]
    exact valuation (some user)

/-- Redirecting one slot to a pointer of equal value keeps the values of all slots. -/
theorem map_targets_replaceInput {ctx : WILContext} {node index : Nat} {newInput : Option Nat}
    {value : Option Nat → V} (valid : index < (ctx.targets node).length)
    (equal : value newInput = value (ctx.inputAt node index)) (user : Nat) :
    ((wilNodeReplaceInput ctx node index newInput).targets user).map value =
      (ctx.targets user).map value := by
  rw [targets_replaceInput]
  split
  -- The stored pointer has the value of what it replaces.
  · rename_i same
    subst same
    rw [inputAt_of_valid valid] at equal
    rw [List.map_set, equal, ← List.getElem_map value (h := by simpa using valid),
      List.set_getElem_self]
  · rfl

/-- Redirecting all uses to a node of equal value keeps the values of all slots. -/
theorem DefUse.map_targets_replaceAllUses {ctx : WILContext} (consistent : DefUse ctx)
    {oldNode newNode : Nat} {value : Option Nat → V}
    (equal : value (some newNode) = value (some oldNode)) (user : Nat) :
    ((wilNodeReplaceAllUses ctx (some oldNode) (some newNode)).targets user).map value =
      (ctx.targets user).map value := by
  rw [consistent.targets_replaceAllUses, List.map_map]
  refine List.map_congr_left fun target _ => ?_
  -- A redirected target has the value of its replacement.
  by_cases hit : target = some oldNode
  · simp [redirect, hit, equal]
  · simp [redirect, hit]

/-! Graphs without null inputs. -/

/-- Redirecting slots to a node leaves no null behind. -/
theorem NoNullInput.replaceAllUses {ctx : WILContext} (present : NoNullInput ctx)
    (consistent : DefUse ctx) (oldNode newNode : Nat) :
    NoNullInput (wilNodeReplaceAllUses ctx (some oldNode) (some newNode)) := by
  intro user member
  rw [consistent.targets_replaceAllUses] at member
  -- A redirected slot holds the new node, and every other one is as before.
  obtain ⟨target, here, same⟩ := List.mem_map.mp member
  unfold redirect at same
  split at same
  · cases same
  · exact present user (same ▸ here)

/-- Storing a node in a slot leaves no null behind. -/
theorem NoNullInput.replaceInput {ctx : WILContext} (present : NoNullInput ctx)
    (node index replacement : Nat) :
    NoNullInput (wilNodeReplaceInput ctx node index (some replacement)) := by
  intro user member
  rw [targets_replaceInput] at member
  split at member
  · -- The slots of the edited node are the old ones and the one that was stored.
    rcases List.mem_or_eq_of_mem_set member with old | new
    · exact present user old
    · cases new
  · exact present user member

end Wirble
