import Wirble.Wil.Rewire

/-! Redirecting every use: the slots it moves, the slots it leaves alone and the emptied list. -/

namespace Wirble

open WILContext

/-- The edge kinds of a node's input slots. -/
def WILContext.edgeKinds (ctx : WILContext) (node : Nat) : List WILEdgeKind :=
  (ctx.slots node).map (·.edgeKind)

/-- What redirecting every use of one node to another does to a whole slot. -/
def redirectSlot (oldNode newNode : Nat) (slot : WILInputSlot) : WILInputSlot :=
  { slot with node := redirect oldNode newNode slot.node }

/-! Edits of one slot keep its edge kind. -/

/-- After a write, the written node's edge kinds are those of the edited record. -/
theorem edgeKinds_modifyNode (ctx : WILContext) (node : Nat) {edit : WILNode → WILNode}
    (kept : ∀ stored : WILNode,
      (edit stored).inputs.map (·.edgeKind) = stored.inputs.map (·.edgeKind)) :
    (ctx.modifyNode node edit).edgeKinds = ctx.edgeKinds := by
  funext other
  -- The slots of the edited record are the only ones that may differ.
  simp only [edgeKinds, slots, modifyNode_get]
  split
  · cases ctx.graph[other]? <;> simp [kept]
  · rfl

/-- Registering a use keeps edge kinds. -/
theorem edgeKinds_registerUse (ctx : WILContext) (input : Option Nat) (user : Nat) :
    (wilNodeRegisterUse ctx input user).edgeKinds = ctx.edgeKinds := by
  cases input with
  | none => rfl
  | some input => exact edgeKinds_modifyNode ctx input fun _ => rfl

/-- Unregistering a use keeps edge kinds. -/
theorem edgeKinds_unregisterUse (ctx : WILContext) (input : Option Nat) (user : Nat) :
    (wilNodeUnregisterUse ctx input user).edgeKinds = ctx.edgeKinds := by
  cases input with
  | none => rfl
  | some input => exact edgeKinds_modifyNode ctx input fun _ => rfl

/-- Redirecting a slot writes its target and nothing else of it. -/
theorem edgeKinds_replaceInput (ctx : WILContext) (node index : Nat) (newInput : Option Nat) :
    (wilNodeReplaceInput ctx node index newInput).edgeKinds = ctx.edgeKinds := by
  unfold wilNodeReplaceInput
  split
  · rw [edgeKinds_registerUse, edgeKinds_modifyNode, edgeKinds_unregisterUse]
    intro stored
    -- The edited record differs from the stored one in the target of one slot.
    apply List.ext_getElem?
    intro position
    simp only [List.getElem?_map, List.getElem?_modify]
    by_cases same : index = position
    · cases stored.inputs[position]? <;> simp [same]
    · simp [same]
  · rfl

/-! The loops of `wil_node_replace_all_uses`. -/

/-- Redirecting the slots of one user keeps edge kinds. -/
theorem edgeKinds_replaceUsesIn (oldNode newNode user index remaining : Nat)
    (ctx : WILContext) :
    (replaceUsesIn oldNode newNode user index remaining ctx).edgeKinds = ctx.edgeKinds := by
  induction remaining generalizing index ctx with
  | zero => rfl
  | succ remaining next =>
    -- One slot is redirected, with its kind, or left alone.
    rw [replaceUsesIn, next]
    split
    · exact edgeKinds_replaceInput ctx user index (some newNode)
    · rfl

/-- Redirecting the slots of all users keeps edge kinds. -/
theorem edgeKinds_replaceUsesOf (oldNode newNode : Nat) (users : List Nat)
    (ctx : WILContext) :
    (replaceUsesOf oldNode newNode users ctx).edgeKinds = ctx.edgeKinds := by
  induction users generalizing ctx with
  | nil => rfl
  | cons user rest next => rw [replaceUsesOf, next, edgeKinds_replaceUsesIn]

/-- Redirecting every use keeps the edge kind of every slot. -/
theorem edgeKinds_replaceAllUses (ctx : WILContext) (oldNode newNode : Option Nat) :
    (wilNodeReplaceAllUses ctx oldNode newNode).edgeKinds = ctx.edgeKinds := by
  unfold wilNodeReplaceAllUses
  split
  · split
    · rfl
    · exact edgeKinds_replaceUsesOf _ _ _ ctx
  · rfl

/-! Whole slots. -/

/-- A list of slots is its targets beside its edge kinds. -/
theorem slots_eq_of_parts {left right : List WILInputSlot}
    (targets : left.map (·.node) = right.map (·.node))
    (kinds : left.map (·.edgeKind) = right.map (·.edgeKind)) : left = right := by
  induction left generalizing right with
  | nil =>
    cases right with
    | nil => rfl
    | cons slot rest => simp at targets
  | cons slot rest next =>
    cases right with
    | nil => simp at targets
    | cons other others =>
      simp only [List.map_cons, List.cons.injEq] at targets kinds
      -- The two heads agree in both fields of a slot.
      have heads : slot = other := by
        cases slot
        cases other
        simp only [WILInputSlot.mk.injEq]
        exact ⟨targets.1, kinds.1⟩
      rw [heads, next targets.2 kinds.2]

/-- In a consistent graph redirecting every use is one map over the slots of every node. -/
theorem DefUse.slots_replaceAllUses {ctx : WILContext} (consistent : DefUse ctx)
    (oldNode newNode user : Nat) :
    (wilNodeReplaceAllUses ctx (some oldNode) (some newNode)).slots user =
      (ctx.slots user).map (redirectSlot oldNode newNode) := by
  -- Targets are mapped, and kinds stay, so the slots are mapped as a whole.
  apply slots_eq_of_parts
  · have moved := consistent.targets_replaceAllUses oldNode newNode user
    simp only [targets, List.map_map] at moved ⊢
    exact moved
  · have kept := congrFun (edgeKinds_replaceAllUses ctx (some oldNode) (some newNode)) user
    simp only [edgeKinds] at kept
    rw [kept, List.map_map]
    exact List.map_congr_left fun _ _ => rfl

/-- No slot refers to the old node once its uses have been redirected. -/
theorem redirect_ne_old {oldNode newNode : Nat} (distinct : oldNode ≠ newNode)
    (target : Option Nat) : redirect oldNode newNode target ≠ some oldNode := by
  unfold redirect
  split
  · intro equal
    exact distinct (Option.some.inj equal).symm
  · assumption

/-- A node that no slot refers to has an empty use list. -/
theorem DefUse.usesOf_eq_nil {ctx : WILContext} (consistent : DefUse ctx) {node : Nat}
    (unread : ∀ user, some node ∉ ctx.targets user) : ctx.usesOf node = [] := by
  apply List.eq_nil_iff_forall_not_mem.mpr
  intro user member
  -- A recorded user has a slot to show for it.
  have counted := consistent.counted node user
  have recorded : 0 < (ctx.usesOf node).count user := List.count_pos_iff.mpr member
  rw [List.count_eq_zero.mpr (unread user)] at counted
  omega

/--
Redirecting the uses of one node to another is exact.
The old node is left without readers, its slots move with their edge kinds, the others stay.
-/
theorem wilNodeReplaceAllUses_exact (ctx : WILContext) (consistent : DefUse ctx)
    (oldNode newNode : Nat) (inside : newNode < ctx.graph.length)
    (distinct : oldNode ≠ newNode) :
    let after := wilNodeReplaceAllUses ctx (some oldNode) (some newNode)
    (∀ user, ∀ slot ∈ after.slots user, slot.node ≠ some oldNode) ∧
      after.usesOf oldNode = [] ∧
      (∀ user, (after.slots user).length = (ctx.slots user).length) ∧
      (∀ (user index : Nat) (slot : WILInputSlot), (ctx.slots user)[index]? = some slot →
        slot.node = some oldNode →
        (after.slots user)[index]? = some { node := some newNode, edgeKind := slot.edgeKind }) ∧
      ∀ (user index : Nat) (slot : WILInputSlot), (ctx.slots user)[index]? = some slot →
        slot.node ≠ some oldNode → (after.slots user)[index]? = some slot := by
  intro after
  have moved : ∀ user, after.slots user =
      (ctx.slots user).map (redirectSlot oldNode newNode) :=
    consistent.slots_replaceAllUses oldNode newNode
  have unread : ∀ user, ∀ slot ∈ after.slots user, slot.node ≠ some oldNode := by
    -- A slot after the redirection is the redirection of a slot.
    intro user slot member
    rw [moved, List.mem_map] at member
    obtain ⟨earlier, -, rfl⟩ := member
    exact redirect_ne_old distinct earlier.node
  refine ⟨unread, ?_, ?_, ?_, ?_⟩
  · -- The redirected graph is consistent, and no slot of it shows the old node.
    have still : DefUse after := consistent.replaceAllUses (some oldNode) (some newNode)
      (fun target equal => by cases equal; exact inside)
    apply still.usesOf_eq_nil
    intro user member
    obtain ⟨slot, present, read⟩ := List.mem_map.mp member
    exact unread user slot present read
  · intro user
    rw [moved, List.length_map]
  -- A slot that showed the old node shows the new one, with its edge kind.
  · intro user index slot found read
    rw [moved, List.getElem?_map, found]
    simp [redirectSlot, redirect, read]
  · intro user index slot found other
    rw [moved, List.getElem?_map, found]
    simp [redirectSlot, redirect, other]

/-- The old node reads itself twice and the new node reads the old one. -/
theorem wilNodeReplaceAllUses_exact_alias :
    let ctx := runCalls (empty 7) [.makeConstInt 1 .i32, .makeBinary .add (some 0) (some 0),
      .replaceInput 1 0 (some 1), .replaceInput 1 1 (some 1), .makeUnary .neg (some 1)]
    let after := wilNodeReplaceAllUses ctx (some 1) (some 2)
    after.usesOf 1 = [] ∧ after.targets 1 = [some 2, some 2] ∧ after.targets 2 = [some 2] :=
  ⟨(wilNodeReplaceAllUses_exact
      (runCalls (empty 7) [.makeConstInt 1 .i32, .makeBinary .add (some 0) (some 0),
        .replaceInput 1 0 (some 1), .replaceInput 1 1 (some 1), .makeUnary .neg (some 1)])
      -- The calls are evaluated on their fixed arguments.
      ((defUse_empty 7).calls _ (by decide)) 1 2 (by decide) (by decide)).2.1,
    by decide, by decide⟩

end Wirble
