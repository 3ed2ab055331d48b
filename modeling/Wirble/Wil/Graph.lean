import Wirble.Wil.Node
import Mathlib.Data.List.Basic

/-! Node creation and the edits of input slots and use lists. -/

namespace Wirble

namespace WILContext

/-- A context fresh from `wil_context_create`. -/
def empty (self : Nat) : WILContext := { self, graph := [], verifyError := none }

/-- The node a pointer refers to, and nothing for the null pointer. -/
def deref (ctx : WILContext) (node : Option Nat) : Option WILNode :=
  node.bind (ctx.graph[·]?)

/-- Write through a node pointer. -/
def modifyNode (ctx : WILContext) (node : Nat) (edit : WILNode → WILNode) : WILContext :=
  { ctx with graph := ctx.graph.modify node edit }

/-- The input slots of a node, empty for a pointer outside the graph. -/
def slots (ctx : WILContext) (node : Nat) : List WILInputSlot :=
  (ctx.graph[node]?).elim [] (·.inputs)

/-- The use list of a node, empty for a pointer outside the graph. -/
def usesOf (ctx : WILContext) (node : Nat) : List Nat :=
  (ctx.graph[node]?).elim [] (·.uses)

/-- The targets of a node's input slots. -/
def targets (ctx : WILContext) (node : Nat) : List (Option Nat) :=
  (ctx.slots node).map (·.node)

/-- `wil_node_input`: a slot outside the node reads as null. -/
def inputAt (ctx : WILContext) (node : Nat) (index : Nat) : Option Nat :=
  ((ctx.slots node)[index]?).bind (·.node)

/-- `wil_node_input_count`. -/
def inputCount (ctx : WILContext) (node : Nat) : Nat := (ctx.slots node).length

end WILContext

/-- Accessors read a null pointer as an integer constant. -/
def wilNodeKind : Option WILNode → WILNodeKind
  | none => .constInt
  | some node => node.kind

/-- Accessors read the type of a null pointer as void. -/
def wilNodeType : Option WILNode → WILType
  | none => .void
  | some node => node.type

/-- Append a fresh node whose id is one more than the previous node count. -/
def wilNodeCreate (ctx : WILContext) (kind : WILNodeKind) (type : WILType)
    (name : Option String) (payload : WILNodePayload := .zero) : WILContext × Nat :=
  ({ ctx with graph := ctx.graph ++ [
      { context := ctx.self
        id := ctx.graph.length + 1
        kind := kind
        category := wilNodeKindCategory kind
        type := type
        name := name
        inputs := []
        uses := []
        payload := payload
        removed := false }] },
    ctx.graph.length)

/-- Record one more use of the input by the user. -/
def wilNodeRegisterUse (ctx : WILContext) (input : Option Nat) (user : Nat) :
    WILContext :=
  match input with
  | none => ctx
  | some input => ctx.modifyNode input fun node => { node with uses := node.uses ++ [user] }

/-- Forget the first recorded use of the input by the user. -/
def wilNodeUnregisterUse (ctx : WILContext) (input : Option Nat) (user : Nat) :
    WILContext :=
  match input with
  | none => ctx
  | some input => ctx.modifyNode input fun node => { node with uses := node.uses.erase user }

/-- Append an input slot and register its use. -/
def wilNodeAddInput (ctx : WILContext) (node : Nat) (input : Option Nat)
    (edgeKind : WILEdgeKind) : WILContext :=
  wilNodeRegisterUse
    (ctx.modifyNode node fun stored =>
      { stored with inputs := stored.inputs ++ [{ node := input, edgeKind }] })
    input node

/-- Redirect one input slot, keeping its edge kind. -/
def wilNodeReplaceInput (ctx : WILContext) (node : Nat) (index : Nat)
    (newInput : Option Nat) : WILContext :=
  if index < ctx.inputCount node then
    let ctx := wilNodeUnregisterUse ctx (ctx.inputAt node index) node
    let ctx := ctx.modifyNode node fun stored =>
      { stored with inputs := stored.inputs.modify index ({ · with node := newInput }) }
    wilNodeRegisterUse ctx newInput node
  else ctx

/-- Delete one input slot and close the gap. -/
def wilNodeRemoveInput (ctx : WILContext) (node : Nat) (index : Nat) : WILContext :=
  if index < ctx.inputCount node then
    (wilNodeUnregisterUse ctx (ctx.inputAt node index) node).modifyNode node fun stored =>
      { stored with inputs := stored.inputs.eraseIdx index }
  else ctx

/-- The inner loop of `wil_node_replace_all_uses`, from the given slot on. -/
def replaceUsesIn (oldNode newNode user : Nat) : Nat → Nat → WILContext → WILContext
  | _, 0, ctx => ctx
  | index, remaining + 1, ctx =>
    replaceUsesIn oldNode newNode user (index + 1) remaining
      (if ctx.inputAt user index = some oldNode
        then wilNodeReplaceInput ctx user index (some newNode) else ctx)

/-- The outer loop of `wil_node_replace_all_uses`, over the snapshot of the use list. -/
def replaceUsesOf (oldNode newNode : Nat) : List Nat → WILContext → WILContext
  | [], ctx => ctx
  | user :: rest, ctx =>
    replaceUsesOf oldNode newNode rest
      (replaceUsesIn oldNode newNode user 0 (ctx.inputCount user) ctx)

/-- Redirect every slot that a recorded user of the old node points at it. -/
def wilNodeReplaceAllUses (ctx : WILContext) (oldNode newNode : Option Nat) :
    WILContext :=
  match oldNode, newNode with
  | some oldNode, some newNode =>
    if oldNode = newNode then ctx
    else replaceUsesOf oldNode newNode (ctx.usesOf oldNode) ctx
  | _, _ => ctx

/-- The loop of `wil_node_remove`, deleting input slots from the last to the first. -/
def removeInputs (node : Nat) : Nat → WILContext → WILContext
  | 0, ctx => ctx
  | count + 1, ctx => removeInputs node count (wilNodeRemoveInput ctx node count)

/-- Detach an unused node from its inputs and flag it. -/
def wilNodeRemove (ctx : WILContext) (node : Nat) : WILContext :=
  if (ctx.usesOf node).length = 0 then
    (removeInputs node (ctx.inputCount node) ctx).modifyNode node ({ · with removed := true })
  else ctx

end Wirble
