import Wirble.Wil.Frame
import Wirble.Library.Dag

/-! Values of WIL graphs under any interpretation of constants, parameters and operators. -/

namespace Wirble

/-- The kinds that denote an operator of fixed arity, which rewrite rules may build. -/
def WILNodeKind.arity : WILNodeKind → Option Nat
  | .add | .sub | .mul | .div | .mod | .and | .or | .xor | .shl | .shr => some 2
  | .neg | .not | .abs => some 1
  | .eq | .ne | .lt | .le | .gt | .ge => some 2
  | .select => some 3
  | _ => none

/-- Operators have one input or two, and the select has three. -/
theorem WILNodeKind.arity_cases {kind : WILNodeKind} {count : Nat}
    (arity : kind.arity = some count) : count = 1 ∨ count = 2 ∨ count = 3 ∧ kind = .select := by
  cases kind <;> simp [WILNodeKind.arity] at arity ⊢ <;> omega

/-- A meaning for everything a value graph is built from. -/
structure WILInterp (V : Type) where
  /-- The null pointer in an input slot. -/
  null : V
  constInt : WILType → Int → V
  constFloat : WILType → DoubleBits → V
  constBool : Bool → V
  param : Nat → V
  operator : WILNodeKind → List V → V
  /-- Nodes of every other kind may depend on all that edits keep of a node. -/
  other : WILNode → List V → V

variable {V : Type}

/-- The value of a node from the values of its inputs. -/
def WILInterp.denote (interp : WILInterp V) (node : WILNode) (inputs : List V) : V :=
  match node.kind with
  | .constInt => interp.constInt node.type node.constInt
  | .constFloat => interp.constFloat node.type node.constFloat
  | .constBool => interp.constBool node.constBool
  | .param => interp.param node.indexValue
  | kind =>
    if kind.arity.isSome then interp.operator kind inputs else interp.other node.core inputs

namespace WILContext

/-- The successors of a pointer are its input slots, and the null pointer has none. -/
def succ (ctx : WILContext) : Option Nat → List (Option Nat)
  | none => []
  | some node => ctx.targets node

/-- The meaning of the node behind a pointer. -/
def label (interp : WILInterp V) (ctx : WILContext) : Option Nat → List V → V
  | none, _ => interp.null
  | some node, inputs => (ctx.graph[node]?).elim interp.null (interp.denote · inputs)

/-- The pointer evaluates to the value. -/
def Denotes (interp : WILInterp V) (ctx : WILContext) : Option Nat → V → Prop :=
  Dag.Denotes (ctx.label interp) ctx.succ

/-- An assignment of a value to every pointer that obeys every node. -/
def IsValuation (interp : WILInterp V) (ctx : WILContext) (value : Option Nat → V) : Prop :=
  Dag.IsValuation (ctx.label interp) ctx.succ value

/-- Every slot points at a node of the graph or is null. -/
def Closed (ctx : WILContext) : Prop :=
  ∀ user target : Nat, some target ∈ ctx.targets user → target < ctx.graph.length

/-- No node depends on itself. -/
def Acyclic (ctx : WILContext) : Prop := Dag.Acyclic ctx.succ

/-- The array is finite, so a graph without cycles has no infinite path. -/
theorem Acyclic.grounded {ctx : WILContext} (acyclic : ctx.Acyclic) : Dag.Grounded ctx.succ := by
  refine Dag.Acyclic.grounded acyclic ?_
  -- Only pointers into the array have successors.
  refine (Set.finite_range fun index : Fin ctx.graph.length => some index.val).subset ?_
  intro pointer nonempty
  cases pointer with
  | none => exact absurd rfl nonempty
  | some node =>
    have inside : node < ctx.graph.length := by
      by_contra outside
      exact nonempty (targets_outside (Nat.not_lt.mp outside))
    exact ⟨⟨node, inside⟩, rfl⟩

/-- Every slot refers to a node created earlier. -/
def Ordered (ctx : WILContext) : Prop :=
  ∀ user < ctx.graph.length, ∀ target ∈ ctx.targets user, target.all (· < user) = true

instance (ctx : WILContext) : Decidable ctx.Ordered :=
  inferInstanceAs (Decidable (∀ user < ctx.graph.length, ∀ target ∈ ctx.targets user,
    target.all (· < user) = true))

/-- References to earlier nodes only cannot form a cycle. -/
theorem Ordered.acyclic {ctx : WILContext} (ordered : ctx.Ordered) : ctx.Acyclic := by
  -- The null pointer ranks below all nodes, which rank by their place in the array.
  refine Dag.acyclic_of_rank (fun pointer => pointer.elim 0 (· + 1)) ?_
  intro pointer target edge
  cases pointer with
  | none => exact absurd edge List.not_mem_nil
  | some user =>
    have earlier := ordered user (inside_of_target edge) target edge
    cases target with
    | none => exact Nat.succ_pos user
    | some target =>
      simp only [Option.all_some, decide_eq_true_eq] at earlier
      show target + 1 < user + 1
      omega

end WILContext

/-- Meanings ignore what edits change. -/
theorem WILInterp.denote_core (interp : WILInterp V) (node : WILNode) (inputs : List V) :
    interp.denote node.core inputs = interp.denote node inputs := by
  have constants : node.core.constInt = node.constInt ∧ node.core.constFloat = node.constFloat ∧
      node.core.constBool = node.constBool ∧ node.core.indexValue = node.indexValue :=
    ⟨rfl, rfl, rfl, rfl⟩
  simp only [denote, constants, show node.core.kind = node.kind from rfl,
    show node.core.type = node.type from rfl, show node.core.core = node.core from rfl]

/-- Edits of slots and use lists keep the meaning of every pointer. -/
theorem SameNodes.label {before after : WILContext} (same : SameNodes before after)
    (interp : WILInterp V) : after.label interp = before.label interp := by
  -- What denotes is the part of a node that edits keep.
  funext pointer inputs
  cases pointer with
  | none => rfl
  | some node =>
    have kept := same.core node
    simp only [WILContext.label]
    -- The node is there in both graphs, or in neither.
    cases later : after.graph[node]? with
    | none =>
      rw [later] at kept
      have absent : before.graph[node]? = none := by simpa using kept.symm
      simp [absent]
    | some record =>
      rw [later] at kept
      cases earlier : before.graph[node]? with
      | none => simp [earlier] at kept
      | some original =>
        -- Records that agree up to slots and uses denote the same.
        have cores : record.core = original.core := by simpa [earlier] using kept
        simp only [Option.elim_some]
        rw [← interp.denote_core record, cores, interp.denote_core]

end Wirble
