import Wirble.Wil.Builder

/-! What each edit changes in the slots, use lists and identities of a graph. -/

namespace Wirble

/-- A node without the parts that edits change: its slots, its use list and its flag. -/
def WILNode.core (node : WILNode) : WILNode :=
  { node with inputs := [], uses := [], removed := false }

namespace WILContext

/-- The targets of a node are read from its stored record. -/
theorem targets_eq (ctx : WILContext) (node : Nat) :
    ctx.targets node = (ctx.graph[node]?).elim [] (·.targets) := by
  -- Both sides are empty past the array and map the same slots inside it.
  simp only [targets, slots, WILNode.targets]
  cases ctx.graph[node]? <;> rfl

/-- A pointer past the node array has no targets. -/
theorem targets_outside {ctx : WILContext} {node : Nat} (outside : ctx.graph.length ≤ node) :
    ctx.targets node = [] := by
  simp [targets, slots, List.getElem?_eq_none outside]

/-- A pointer past the node array has no uses. -/
theorem usesOf_outside {ctx : WILContext} {node : Nat} (outside : ctx.graph.length ≤ node) :
    ctx.usesOf node = [] := by
  simp [usesOf, List.getElem?_eq_none outside]

/-- A node with a target lies inside the array. -/
theorem inside_of_target {ctx : WILContext} {node : Nat} {target : Option Nat}
    (member : target ∈ ctx.targets node) : node < ctx.graph.length := by
  by_contra outside
  simp [targets_outside (Nat.not_lt.mp outside)] at member

/-- Reading one slot is reading one target. -/
theorem inputAt_eq (ctx : WILContext) (node : Nat) (index : Nat) :
    ctx.inputAt node index = ((ctx.targets node)[index]?).join := by
  simp only [inputAt, targets, List.getElem?_map]
  cases (ctx.slots node)[index]? <;> rfl

/-- The input count is the number of targets. -/
theorem inputCount_eq (ctx : WILContext) (node : Nat) :
    ctx.inputCount node = (ctx.targets node).length := by
  simp [inputCount, targets]

/-- Targets of a node present in the graph are those it stores. -/
theorem targets_of_node {ctx : WILContext} {ref : Nat} {node : WILNode}
    (found : ctx.graph[ref]? = some node) : ctx.targets ref = node.targets := by
  simp [targets_eq, found]

/-- Uses of a node present in the graph are those it stores. -/
theorem usesOf_of_node {ctx : WILContext} {ref : Nat} {node : WILNode}
    (found : ctx.graph[ref]? = some node) : ctx.usesOf ref = node.uses := by
  simp [usesOf, found]

/-- Writing a node adds none. -/
@[simp] theorem modifyNode_length (ctx : WILContext) (node : Nat)
    (edit : WILNode → WILNode) :
    (ctx.modifyNode node edit).graph.length = ctx.graph.length := by
  simp [modifyNode]

/-- Writing a node keeps the context. -/
@[simp] theorem modifyNode_self (ctx : WILContext) (node : Nat)
    (edit : WILNode → WILNode) : (ctx.modifyNode node edit).self = ctx.self := rfl

/-- Reading the array after a write sees the edit at the written position only. -/
theorem modifyNode_get (ctx : WILContext) (node other : Nat) (edit : WILNode → WILNode) :
    (ctx.modifyNode node edit).graph[other]? =
      if node = other then (ctx.graph[other]?).map edit else ctx.graph[other]? := by
  simp only [modifyNode, List.getElem?_modify]
  split <;> simp_all

/-- After a write, the written node's targets are those of the edited record. -/
theorem targets_modifyNode (ctx : WILContext) (node other : Nat)
    (edit : WILNode → WILNode) :
    (ctx.modifyNode node edit).targets other =
      if node = other then (ctx.graph[other]?).elim [] (fun stored => (edit stored).targets)
      else ctx.targets other := by
  simp only [targets_eq, modifyNode_get]
  split
  · cases ctx.graph[other]? <;> rfl
  · rfl

/-- A write that keeps the stored inputs keeps every target. -/
theorem targets_modifyNode_of_inputs (ctx : WILContext) (node : Nat)
    {edit : WILNode → WILNode} (kept : ∀ stored, (edit stored).inputs = stored.inputs) :
    (ctx.modifyNode node edit).targets = ctx.targets := by
  funext other
  rw [targets_modifyNode, targets_eq]
  split
  · cases ctx.graph[other]? <;> simp [WILNode.targets, kept]
  · rfl

/-- A write that keeps the stored uses keeps every use list. -/
theorem usesOf_modifyNode_of_uses (ctx : WILContext) (node : Nat)
    {edit : WILNode → WILNode} (kept : ∀ stored, (edit stored).uses = stored.uses) :
    (ctx.modifyNode node edit).usesOf = ctx.usesOf := by
  funext other
  simp only [usesOf, modifyNode_get]
  split
  · cases ctx.graph[other]? <;> simp [kept]
  · rfl

end WILContext

open WILContext

/-- Two graphs hold the same nodes apart from slots, use lists and removal flags. -/
structure SameNodes (before after : WILContext) : Prop where
  self : after.self = before.self
  length : after.graph.length = before.graph.length
  core : ∀ ref : Nat,
    (after.graph[ref]?).map WILNode.core = (before.graph[ref]?).map WILNode.core

/-- Nothing changes when nothing is done. -/
theorem SameNodes.refl (ctx : WILContext) : SameNodes ctx ctx := ⟨rfl, rfl, fun _ => rfl⟩

/-- Two edits that keep the nodes keep them together. -/
theorem SameNodes.trans {first second third : WILContext} (left : SameNodes first second)
    (right : SameNodes second third) : SameNodes first third where
  self := right.self.trans left.self
  length := right.length.trans left.length
  core ref := (right.core ref).trans (left.core ref)

/-- A write that only edits slots, uses or the flag keeps the nodes. -/
theorem sameNodes_modifyNode (ctx : WILContext) (node : Nat) {edit : WILNode → WILNode}
    (kept : ∀ stored, (edit stored).core = stored.core) :
    SameNodes ctx (ctx.modifyNode node edit) := by
  -- Positions other than the written one read back unchanged.
  refine ⟨rfl, by simp, fun ref => ?_⟩
  rw [modifyNode_get]
  split
  · cases ctx.graph[ref]? <;> simp [kept]
  · rfl

/-! Registration touches use lists only. -/

/-- Registering a use changes no slot. -/
@[simp] theorem targets_registerUse (ctx : WILContext) (input : Option Nat)
    (user : Nat) : (wilNodeRegisterUse ctx input user).targets = ctx.targets := by
  cases input with
  | none => rfl
  | some input => exact targets_modifyNode_of_inputs ctx input fun _ => rfl

/-- Taking a use back changes no slot. -/
@[simp] theorem targets_unregisterUse (ctx : WILContext) (input : Option Nat)
    (user : Nat) : (wilNodeUnregisterUse ctx input user).targets = ctx.targets := by
  cases input with
  | none => rfl
  | some input => exact targets_modifyNode_of_inputs ctx input fun _ => rfl

/-- Registering a use keeps every node. -/
theorem sameNodes_registerUse (ctx : WILContext) (input : Option Nat) (user : Nat) :
    SameNodes ctx (wilNodeRegisterUse ctx input user) := by
  cases input with
  | none => exact .refl ctx
  | some input => exact sameNodes_modifyNode ctx input fun _ => rfl

/-- Forgetting a use keeps every node. -/
theorem sameNodes_unregisterUse (ctx : WILContext) (input : Option Nat)
    (user : Nat) : SameNodes ctx (wilNodeUnregisterUse ctx input user) := by
  cases input with
  | none => exact .refl ctx
  | some input => exact sameNodes_modifyNode ctx input fun _ => rfl

/-- Registration appends the user to the use list of the input. -/
theorem usesOf_registerUse (ctx : WILContext) (input : Option Nat)
    (user node : Nat) :
    (wilNodeRegisterUse ctx input user).usesOf node =
      if input = some node ∧ node < ctx.graph.length then ctx.usesOf node ++ [user]
      else ctx.usesOf node := by
  -- Only the use list of the input grows, and a null input has none.
  cases input with
  | none => simp [wilNodeRegisterUse]
  | some input =>
    simp only [wilNodeRegisterUse, usesOf, modifyNode_get, Option.some.injEq]
    by_cases same : input = node
    · subst same
      by_cases inside : input < ctx.graph.length
      · simp [inside]
      · simp [inside]
    · simp [same]

/-- Unregistration erases the first occurrence of the user from the use list of the input. -/
theorem usesOf_unregisterUse (ctx : WILContext) (input : Option Nat)
    (user node : Nat) :
    (wilNodeUnregisterUse ctx input user).usesOf node =
      if input = some node then (ctx.usesOf node).erase user else ctx.usesOf node := by
  cases input with
  | none => simp [wilNodeUnregisterUse]
  | some input =>
    simp only [wilNodeUnregisterUse, usesOf, modifyNode_get, Option.some.injEq]
    by_cases same : input = node
    · subst same
      cases ctx.graph[input]? <;> simp
    · simp [same]

/-! Appending a slot. -/

/-- The new slot is the last target of its node, and other nodes keep theirs. -/
theorem targets_addInput (ctx : WILContext) (node other : Nat) (input : Option Nat)
    (edgeKind : WILEdgeKind) :
    (wilNodeAddInput ctx node input edgeKind).targets other =
      if node = other ∧ other < ctx.graph.length then ctx.targets other ++ [input]
      else ctx.targets other := by
  rw [wilNodeAddInput, targets_registerUse, targets_modifyNode, targets_eq]
  by_cases same : node = other
  · subst same
    by_cases inside : node < ctx.graph.length
    · simp [inside, WILNode.targets]
    · simp [inside]
  · simp [same]

/-- Only the use list of the new input grows. -/
theorem usesOf_addInput (ctx : WILContext) (node other : Nat) (input : Option Nat)
    (edgeKind : WILEdgeKind) :
    (wilNodeAddInput ctx node input edgeKind).usesOf other =
      if input = some other ∧ other < ctx.graph.length then ctx.usesOf other ++ [node]
      else ctx.usesOf other := by
  rw [wilNodeAddInput, usesOf_registerUse, modifyNode_length, usesOf_modifyNode_of_uses]
  intro stored
  rfl

/-- Appending a slot keeps every node. -/
theorem sameNodes_addInput (ctx : WILContext) (node : Nat) (input : Option Nat)
    (edgeKind : WILEdgeKind) : SameNodes ctx (wilNodeAddInput ctx node input edgeKind) := by
  refine .trans (sameNodes_modifyNode ctx node ?_) (sameNodes_registerUse _ _ _)
  intro stored
  rfl

/-! Redirecting a slot. -/

/-- Redirecting a slot record sets its target in the list of targets. -/
theorem slot_targets_modify (inputs : List WILInputSlot) (index : Nat)
    (newInput : Option Nat) :
    (inputs.modify index ({ · with node := newInput })).map (·.node) =
      (inputs.map (·.node)).set index newInput := by
  -- The lists agree at every position, and only the redirected one differs from the input.
  apply List.ext_getElem?
  intro position
  simp only [List.getElem?_map, List.getElem?_modify, List.getElem?_set]
  by_cases same : index = position
  · subst same
    by_cases inside : index < inputs.length
    · simp [inside]
    · simp [inside]
  · simp [same]

/-- Exactly the named slot of the named node is redirected. -/
theorem targets_replaceInput (ctx : WILContext) (node other : Nat) (index : Nat)
    (newInput : Option Nat) :
    (wilNodeReplaceInput ctx node index newInput).targets other =
      if node = other then (ctx.targets other).set index newInput else ctx.targets other := by
  unfold wilNodeReplaceInput
  by_cases valid : index < ctx.inputCount node
  · have read := congrFun (targets_unregisterUse ctx (ctx.inputAt node index) node) other
    simp only [valid, if_true, targets_registerUse, targets_modifyNode]
    split
    · -- Modifying the slot record sets the mapped target at the same position.
      rw [← read, targets_eq]
      cases (wilNodeUnregisterUse ctx (ctx.inputAt node index) node).graph[other]? with
      | none => rfl
      | some stored => exact slot_targets_modify stored.inputs index newInput
    · exact read
  · simp only [valid, if_false]
    split
    · -- Past the last slot the write is refused, and setting a target there does nothing.
      rename_i same
      subst same
      rw [List.set_eq_of_length_le]
      rw [inputCount_eq] at valid
      omega
    · rfl

/-- Redirecting a slot keeps every node. -/
theorem sameNodes_replaceInput (ctx : WILContext) (node : Nat) (index : Nat)
    (newInput : Option Nat) :
    SameNodes ctx (wilNodeReplaceInput ctx node index newInput) := by
  simp only [wilNodeReplaceInput]
  split
  · refine .trans (sameNodes_unregisterUse ctx (ctx.inputAt node index) node) ?_
    refine .trans (sameNodes_modifyNode _ node ?_) (sameNodes_registerUse _ newInput node)
    intro stored
    rfl
  · exact .refl ctx

/-- The old target forgets one use and the new target records one. -/
theorem usesOf_replaceInput (ctx : WILContext) (node other : Nat) (index : Nat)
    (newInput : Option Nat) (valid : index < ctx.inputCount node) :
    (wilNodeReplaceInput ctx node index newInput).usesOf other =
      if newInput = some other ∧ other < ctx.graph.length then
        (if ctx.inputAt node index = some other then (ctx.usesOf other).erase node
          else ctx.usesOf other) ++ [node]
      else if ctx.inputAt node index = some other then (ctx.usesOf other).erase node
      else ctx.usesOf other := by
  have length : (wilNodeUnregisterUse ctx (ctx.inputAt node index) node).graph.length =
      ctx.graph.length := (sameNodes_unregisterUse _ _ _).length
  simp only [wilNodeReplaceInput, valid, if_true, usesOf_registerUse, modifyNode_length, length]
  rw [usesOf_modifyNode_of_uses, usesOf_unregisterUse]
  intro stored
  rfl

/-! Deleting a slot. -/

/-- Exactly the named slot of the named node disappears. -/
theorem targets_removeInput (ctx : WILContext) (node other : Nat) (index : Nat) :
    (wilNodeRemoveInput ctx node index).targets other =
      if node = other then (ctx.targets other).eraseIdx index else ctx.targets other := by
  unfold wilNodeRemoveInput
  by_cases valid : index < ctx.inputCount node
  · -- Taking a use from a list changes no slot.
    have read := congrFun (targets_unregisterUse ctx (ctx.inputAt node index) node) other
    simp only [valid, if_true, targets_modifyNode]
    split
    · rw [← read, targets_eq]
      cases (wilNodeUnregisterUse ctx (ctx.inputAt node index) node).graph[other]? with
      | none => rfl
      | some stored => simp [WILNode.targets, List.eraseIdx_eq_take_drop_succ]
    · exact read
  · simp only [valid, if_false]
    split
    · -- Past the last slot nothing is removed.
      rename_i same
      subst same
      rw [inputCount_eq] at valid
      rw [List.eraseIdx_eq_self.mpr (Nat.not_lt.mp valid)]
    · rfl

/-- Deleting a slot keeps every node. -/
theorem sameNodes_removeInput (ctx : WILContext) (node : Nat) (index : Nat) :
    SameNodes ctx (wilNodeRemoveInput ctx node index) := by
  unfold wilNodeRemoveInput
  split
  · refine .trans (sameNodes_unregisterUse _ _ _) (sameNodes_modifyNode _ _ ?_)
    intro stored
    rfl
  · exact .refl ctx

/-- Only the target of the deleted slot forgets a use. -/
theorem usesOf_removeInput (ctx : WILContext) (node other : Nat) (index : Nat)
    (valid : index < ctx.inputCount node) :
    (wilNodeRemoveInput ctx node index).usesOf other =
      if ctx.inputAt node index = some other then (ctx.usesOf other).erase node
      else ctx.usesOf other := by
  simp only [wilNodeRemoveInput, valid, if_true]
  rw [usesOf_modifyNode_of_uses, usesOf_unregisterUse]
  intro stored
  rfl

end Wirble
