import Wirble.Wil.Graph

/-! The graph verifier, with the texts of its errors. -/

namespace Wirble

/-- Check the input slots of a node from the given position on. -/
def verifyInputs (ctx : WILContext) (nodeRef : Nat) (node : WILNode) :
    Nat → List WILInputSlot → Option String
  | _, [] => none
  | index, slot :: rest =>
    match slot.node with
    | none => some s!"node {node.id} has a null input at slot {index}"
    | some input =>
      if nodeRef ∈ ctx.usesOf input then verifyInputs ctx nodeRef node (index + 1) rest
      else some s!"node {node.id} input {index} is missing a reverse use"

/-- Check the entries of a node's use list. -/
def verifyUses (ctx : WILContext) (nodeRef : Nat) (node : WILNode) :
    List Nat → Option String
  | [] => none
  | user :: rest =>
    if some nodeRef ∈ ctx.targets user then verifyUses ctx nodeRef node rest
    else
      let userId := (ctx.graph[user]?).elim 0 (·.id)
      some s!"node {node.id} use list references node {userId} without matching input"

/-- The first error of one node, if it has any. -/
def wilVerifyNode (ctx : WILContext) (nodeRef : Nat) (node : WILNode) : Option String :=
  if node.context ≠ ctx.self then some s!"node {node.id} belongs to a different context"
  else if node.id = 0 then some "node has an invalid id"
  else (verifyInputs ctx nodeRef node 0 node.inputs).or (verifyUses ctx nodeRef node node.uses)

/-- The loop of the verifier over the node array, from the given position on. -/
def verifyNodes (ctx : WILContext) : Nat → List WILNode → Option String
  | _, [] => none
  | index, node :: rest => (wilVerifyNode ctx index node).or (verifyNodes ctx (index + 1) rest)

/-- Verify every node, leaving the text of the first error in the context. -/
def wilVerifyGraph (ctx : WILContext) : WILContext × Bool :=
  let error := verifyNodes ctx 0 ctx.graph
  ({ ctx with verifyError := error }, error.isNone)

end Wirble
