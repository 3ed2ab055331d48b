import Wirble.Wrs.Apply
import Wirble.Library.Term

/-! Translation of nodes into e-graph terms, comparison of nodes, and extraction. -/

namespace Wirble

open Term

/-- The operator id of a kind is its position in the enumeration, plus one. -/
def wrsOpOfKind (kind : WILNodeKind) : Nat := kind.ctorIdx + 1

/-- Different kinds have different operator ids. -/
theorem wrsOpOfKind_injective : Function.Injective wrsOpOfKind := by
  intro left right same
  have index : left.ctorIdx = right.ctorIdx := Nat.succ.inj same
  rw [← WILNodeKind.ofNat_ctorIdx left, index, WILNodeKind.ofNat_ctorIdx]

def wrsIsEqxRewritableKind : WILNodeKind → Bool
  | .add | .mul | .and | .or | .xor => true
  | _ => false

/-- Patterns of the e-graph library. -/
inductive EqxPattern where
  | var (name : String)
  | binary (op : Nat) (lhs rhs : EqxPattern)
  deriving DecidableEq, Repr

/-- An instance of a pattern. -/
def EqxPattern.instantiate (assign : String → Term Nat) : EqxPattern → Term Nat
  | .var name => assign name
  | .binary op lhs rhs => app op [lhs.instantiate assign, rhs.instantiate assign]

/-- A rule of the e-graph library, which merges both sides. -/
structure EqxRule where
  lhs : EqxPattern
  rhs : EqxPattern
  deriving DecidableEq, Repr

/-- Exchanging the operands. The names of these rules play no part. -/
def wrsMakeCommRule (op : Nat) : EqxRule :=
  { lhs := .binary op (.var "x") (.var "y"), rhs := .binary op (.var "y") (.var "x") }

/-- Moving the brackets, to the left or back to the right. -/
def wrsMakeAssocRule (op : Nat) (reverse : Bool) : EqxRule :=
  let right : EqxPattern := .binary op (.var "x") (.binary op (.var "y") (.var "z"))
  let left : EqxPattern := .binary op (.binary op (.var "x") (.var "y")) (.var "z")
  if reverse then { lhs := left, rhs := right } else { lhs := right, rhs := left }

/-- The three rules of one operator. -/
def wrsOperatorRules (kind : WILNodeKind) : List EqxRule :=
  [wrsMakeCommRule (wrsOpOfKind kind), wrsMakeAssocRule (wrsOpOfKind kind) false,
    wrsMakeAssocRule (wrsOpOfKind kind) true]

/-- The rules that `wrs_saturate_eqx` registers. -/
def wrsSaturateRules : List EqxRule :=
  wrsOperatorRules .add ++ wrsOperatorRules .mul ++ wrsOperatorRules .and ++
    wrsOperatorRules .or ++ wrsOperatorRules .xor

/-- Both sides of a rule under one assignment. -/
def EqxEquation (rules : List EqxRule) (left right : Term Nat) : Prop :=
  ∃ rule ∈ rules, ∃ assign : String → Term Nat,
    left = rule.lhs.instantiate assign ∧ right = rule.rhs.instantiate assign

/-- The e-graph library: which of the added terms it has merged after applying rules. -/
structure Equinox where
  -- The arguments are the terms added, the rules, the bound on rounds and the two terms compared.
  merged : List (Term Nat) → List EqxRule → Nat → Term Nat → Term Nat → Bool

/-- The library merges only terms equal by congruence and the rules. -/
def Equinox.Sound (lib : Equinox) : Prop :=
  ∀ added rules rounds, ∀ left ∈ added, ∀ right ∈ added,
    lib.merged added rules rounds left right = true → Conv (EqxEquation rules) left right

/-- The library merges exactly the terms equal by congruence and the rules. -/
def Equinox.Exact (lib : Equinox) : Prop :=
  ∀ added rules rounds, ∀ left ∈ added, ∀ right ∈ added,
    lib.merged added rules rounds left right = true ↔ Conv (EqxEquation rules) left right

/-- A library that merges exactly the equal terms is sound. -/
theorem Equinox.Exact.sound {lib : Equinox} (precise : lib.Exact) : lib.Sound :=
  fun added rules rounds left leftAdded right rightAdded =>
    (precise added rules rounds left leftAdded right rightAdded).mp

/-- The nodes already added, each with the term that stands for its class. -/
abbrev WRSEGraphBuild := List (Nat × Term Nat)

/-- The outcome of adding nodes to an e-graph. -/
inductive AddResult (α : Type) where
  | outOfFuel
  | failed
  | added (build : WRSEGraphBuild) (value : α)

/-- The loop over the inputs of a node. -/
def wrsAddInputs (add : WRSEGraphBuild → Option Nat → AddResult (Term Nat)) :
    WRSEGraphBuild → List (Option Nat) → AddResult (List (Term Nat))
  | build, [] => .added build []
  | build, input :: rest =>
    match add build input with
    | .added build id =>
      match wrsAddInputs add build rest with
      | .added build ids => .added build (id :: ids)
      | .failed => .failed
      | .outOfFuel => .outOfFuel
    | .failed => .failed
    | .outOfFuel => .outOfFuel

section Graph

variable (ctx : WILContext)

/-- `wil_node_kind` of a pointer. -/
def kindAt (node : Nat) : WILNodeKind := wilNodeKind (ctx.deref (some node))

/-- Add a node after its inputs, unless it was added before. -/
def wrsAddNode : Nat → WRSEGraphBuild → Option Nat → AddResult (Term Nat)
  | 0, _, _ => .outOfFuel
  | _ + 1, _, none => .failed
  | fuel + 1, build, some node =>
    match build.lookup node with
    | some cached => .added build cached
    | none =>
      if 4 < ctx.inputCount node then .failed
      else
        match wrsAddInputs (wrsAddNode fuel) build (ctx.targets node) with
        | .added build ids =>
          -- Only the kind and the inputs reach the e-graph.
          let id := app (wrsOpOfKind (kindAt ctx node)) ids
          .added (build ++ [(node, id)]) id
        | .failed => .failed
        | .outOfFuel => .outOfFuel

/-- The cost of a node, which is a small whole number. -/
def wrsNodeCost (node : Nat) : Nat :=
  match kindAt ctx node with
  | .constInt | .constFloat | .constBool | .param => 1
  | _ => 2 + ctx.inputCount node

/-- The first of the cheapest nodes in the class of the root. -/
def wrsPickBest (inClass : Term Nat → Bool) : WRSEGraphBuild → Option (Nat × Nat) → Option Nat
  | [], best => best.map (·.1)
  | (node, id) :: rest, best =>
    let cost := wrsNodeCost ctx node
    if inClass id && best.elim true (cost < ·.2) then wrsPickBest inClass rest (some (node, cost))
    else wrsPickBest inClass rest best

variable (lib : Equinox) (fuel : Nat)

/-- `wrs_normalize_with_egraph`, nothing when the fuel does not suffice. -/
def wrsNormalizeWithEgraph (node : Option Nat) (maxIterations : Nat) : Option (Option Nat) :=
  match node with
  | none => some none
  | some root =>
    match wrsAddNode ctx fuel [] (some root) with
    | .outOfFuel => none
    | .failed => some none
    | .added build rootId =>
      let inClass :=
        lib.merged (build.map (·.2)) wrsSaturateRules (max maxIterations 1) rootId
      some (wrsPickBest ctx inClass build none)

/-- `wrs_nodes_equivalent`, nothing when the fuel does not suffice. -/
def wrsNodesEquivalent (a b : Option Nat) : Option Bool :=
  if a = b then some true
  else
    match a, b with
    | some left, some right =>
      match wrsAddNode ctx fuel [] a with
      | .outOfFuel => none
      | .failed => some false
      | .added build leftId =>
        match wrsAddNode ctx fuel build b with
        | .outOfFuel => none
        | .failed => some false
        | .added build rightId =>
          -- The rules are applied only when one of the two nodes has an operator they mention.
          let rules :=
            if wrsIsEqxRewritableKind (kindAt ctx left) || wrsIsEqxRewritableKind (kindAt ctx right)
            then wrsSaturateRules else []
          some (lib.merged (build.map (·.2)) rules 8 leftId rightId)
    | _, _ => some false

end Graph

end Wirble
