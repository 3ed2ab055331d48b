import Wirble.Wrs.Pattern

/-! Matching patterns against nodes, and building nodes from patterns. -/

namespace Wirble

/-- `wilSubstitutionLookup`: a missing name reads as null. -/
def wilSubstitutionLookup (subst : WILSubstitution) (name : Option String) : Option Nat :=
  name.bind fun name => (subst.lookup name).join

/-- Whether a constant pattern accepts a node. -/
def wrsMatchConstant (pat : WILPattern) (node : WILNode) : Bool :=
  node.isConst &&
    match pat with
    | .constInt value => node.kind == .constInt && node.constInt == value
    | .constFloat value => node.kind == .constFloat && node.constFloat.equal value
    | .constBool value => node.kind == .constBool && node.constBool == value
    | _ => false

section Match

-- The test of repeated variables is `wrs_nodes_equivalent` in the source.
variable (equivalent : WILContext → Option Nat → Option Nat → Bool) (ctx : WILContext)

/-- Bind a name, or compare with the node it is bound to. -/
def wrsSubstitutionBind (subst : WILSubstitution) (name : Option String) (node : Option Nat) :
    Option WILSubstitution :=
  match name with
  | none => none
  | some name =>
    match subst.lookup name with
    | some bound => if equivalent ctx bound node then some subst else none
    | none => some (subst ++ [(name, node)])

mutual

/-- Match a pattern, extending the bindings. A failed match leaves nothing that is read. -/
def wrsMatchPattern (subst : WILSubstitution) :
    WILPattern → Option Nat → Option WILSubstitution
  | .null, _ => none
  | .wildcard, _ => some subst
  | .var name, node | .sequence name _, node => wrsSubstitutionBind equivalent ctx subst name node
  | .constInt value, node => matchConstantAt subst (.constInt value) node
  | .constFloat value, node => matchConstantAt subst (.constFloat value) node
  | .constBool value, node => matchConstantAt subst (.constBool value) node
  | .predicate test, node =>
    if test.elim false (fun test => test ctx node) then some subst else none
  | .refinement base, node => wrsMatchPattern subst base node
  | .node kind inputs, node =>
    match node, ctx.deref node with
    | some ref, some stored =>
      if stored.kind = kind ∧ stored.inputs.length = inputs.length then
        matchInputs subst inputs (ctx.targets ref)
      else none
    | _, _ => none
where
  /-- A constant pattern accepts a constant node of equal value. -/
  matchConstantAt (subst : WILSubstitution) (pat : WILPattern) (node : Option Nat) :
      Option WILSubstitution :=
    if (ctx.deref node).elim false (wrsMatchConstant pat) then some subst else none

/-- Match the inputs of a node pattern from the first to the last. -/
def matchInputs (subst : WILSubstitution) :
    List WILPattern → List (Option Nat) → Option WILSubstitution
  | [], _ => some subst
  | _ :: _, [] => none
  | pat :: pats, node :: nodes =>
    (wrsMatchPattern subst pat node).bind fun subst => matchInputs subst pats nodes

end

/-- `wilPatternMatch`, where a failed match is nothing. -/
def wilPatternMatch (pat : WILPattern) (node : Option Nat) : Option WILMatch :=
  (wrsMatchPattern equivalent ctx [] pat node).map fun substitution => { node, substitution }

end Match

mutual

/-- Build the nodes of a pattern, reading variables from the substitution. -/
def wrsApplyPattern (subst : WILSubstitution) :
    WILPattern → WILContext → WILContext × Option Nat
  | .var name, ctx | .sequence name _, ctx => (ctx, wilSubstitutionLookup subst name)
  | .constInt value, ctx =>
    let (ctx, node) := wilMakeConstInt ctx value .i32
    (ctx, some node)
  | .constFloat value, ctx =>
    let (ctx, node) := wilMakeConstFloat ctx value .f64
    (ctx, some node)
  | .constBool value, ctx =>
    let (ctx, node) := wilMakeConstBool ctx value
    (ctx, some node)
  | .refinement base, ctx => wrsApplyPattern subst base ctx
  | .node kind inputs, ctx =>
    let (ctx, nodes) := wrsApplyPatterns subst inputs ctx
    -- Inputs past the pattern's own are read as null here, and out of bounds in the source.
    let input (index : Nat) : Option Nat := (nodes[index]?).join
    match kind.arity with
    | some 1 =>
      let (ctx, node) := wilMakeUnary ctx kind (input 0)
      (ctx, some node)
    | some 2 =>
      let (ctx, node) := wilMakeBinary ctx kind (input 0) (input 1)
      (ctx, some node)
    | some _ =>
      let (ctx, node) := wilMakeSelect ctx (input 0) (input 1) (input 2)
      (ctx, some node)
    | none => (ctx, none)
  | .null, ctx | .wildcard, ctx | .predicate _, ctx => (ctx, none)

/-- Build the inputs of a node pattern from the first to the last. -/
def wrsApplyPatterns (subst : WILSubstitution) :
    List WILPattern → WILContext → WILContext × List (Option Nat)
  | [], ctx => (ctx, [])
  | pat :: pats, ctx =>
    let (ctx, node) := wrsApplyPattern subst pat ctx
    let (ctx, nodes) := wrsApplyPatterns subst pats ctx
    (ctx, node :: nodes)

end

/-- `wilSubstitutionApply`. -/
def wilSubstitutionApply (ctx : WILContext) (subst : WILSubstitution) (pat : WILPattern) :
    WILContext × Option Nat :=
  wrsApplyPattern subst pat ctx

end Wirble
