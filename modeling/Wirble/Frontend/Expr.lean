import Wirble.Wil.Evolve
import Wirble.Wil.Semantics

/-! Expression trees of the front end: constant folding and lowering to a node graph. -/

namespace Wirble

open WILContext

inductive WirbleUnaryOp where
  | neg
  deriving DecidableEq, Repr

inductive WirbleBinaryOp where
  | add | sub | mul | div
  deriving DecidableEq, Repr

/-- An expression tree, whose literals are signed words of 64 bits. -/
inductive WirbleExpr where
  | int (value : BitVec 64)
  | unary (op : WirbleUnaryOp) (operand : WirbleExpr)
  | binary (op : WirbleBinaryOp) (lhs rhs : WirbleExpr)
  deriving DecidableEq, Repr

/-- The value of an expression, unless a division by zero leaves it without one. Results wrap
around where they do not fit, which the source leaves undefined. -/
def wirbleExprIsConst : WirbleExpr → Option (BitVec 64)
  | .int value => some value
  | .unary .neg operand => (wirbleExprIsConst operand).map (- ·)
  | .binary op lhs rhs => do
    let lhs ← wirbleExprIsConst lhs
    let rhs ← wirbleExprIsConst rhs
    match op with
    | .add => some (lhs + rhs)
    | .sub => some (lhs - rhs)
    | .mul => some (lhs * rhs)
    | .div => if rhs = 0 then none else some (lhs.sdiv rhs)

/-- The end of `wirble_expr_fold_constants`: an expression with a value becomes a literal. -/
def wirbleExprFolded (expr : WirbleExpr) : WirbleExpr :=
  match wirbleExprIsConst expr with
  | some value => .int value
  | none => expr

/-- `wirble_expr_fold_constants`, which folds the operands first. -/
def wirbleExprFoldConstants : WirbleExpr → WirbleExpr
  | .int value => .int value
  | .unary op operand => wirbleExprFolded (.unary op (wirbleExprFoldConstants operand))
  | .binary op lhs rhs =>
    wirbleExprFolded (.binary op (wirbleExprFoldConstants lhs) (wirbleExprFoldConstants rhs))

/-- The node kind of an operator. -/
def WirbleBinaryOp.kind : WirbleBinaryOp → WILNodeKind
  | .add => .add
  | .sub => .sub
  | .mul => .mul
  | .div => .div

/-- `wirble_lower_expr`: the operands of an operator are built before it, from left to right. -/
def wirbleLowerExpr (ctx : WILContext) : WirbleExpr → WILContext × Nat
  | .int value => wilMakeConstInt ctx value.toInt .i32
  | .unary .neg operand =>
    let (ctx, value) := wirbleLowerExpr ctx operand
    wilMakeUnary ctx .neg (some value)
  | .binary op lhs rhs =>
    let (ctx, left) := wirbleLowerExpr ctx lhs
    let (ctx, right) := wirbleLowerExpr ctx rhs
    wilMakeBinary ctx op.kind (some left) (some right)

/-! What folding leaves. -/

/-- Some operator of the tree is a division. -/
def WirbleExpr.divides : WirbleExpr → Bool
  | .int _ => false
  | .unary _ operand => operand.divides
  | .binary op lhs rhs => op == .div || lhs.divides || rhs.divides

/-- Without a division every expression has a value. -/
theorem wirbleExprIsConst_isSome : ∀ {expr : WirbleExpr}, expr.divides = false →
    (wirbleExprIsConst expr).isSome = true
  | .int value, _ => rfl
  | .unary .neg operand, whole => by
    rw [wirbleExprIsConst, Option.isSome_map]
    exact show (wirbleExprIsConst operand).isSome = true from wirbleExprIsConst_isSome whole
  | .binary op lhs rhs, whole => by
    simp only [WirbleExpr.divides, Bool.or_eq_false_iff] at whole
    obtain ⟨⟨other, left⟩, right⟩ := whole
    obtain ⟨x, leftValue⟩ := Option.isSome_iff_exists.mp (wirbleExprIsConst_isSome left)
    obtain ⟨y, rightValue⟩ := Option.isSome_iff_exists.mp (wirbleExprIsConst_isSome right)
    rw [wirbleExprIsConst, leftValue, rightValue]
    -- Only a division can fail on values.
    cases op with
    | div => cases other
    | add | sub | mul => rfl

/-- Folding gives an integer, or leaves a division by zero. -/
theorem wirbleExprFolded_cases (expr : WirbleExpr) :
    (∃ value, wirbleExprFolded expr = .int value) ∨ (wirbleExprFolded expr).divides = true := by
  rw [wirbleExprFolded]
  cases known : wirbleExprIsConst expr with
  | some value => exact .inl ⟨value, rfl⟩
  -- What is not folded holds a division by zero, for all else has a value.
  | none =>
    refine .inr (Bool.not_eq_false _ ▸ fun whole => ?_)
    have value := wirbleExprIsConst_isSome whole
    rw [known] at value
    cases value

/-- A folded expression is a literal, or divides somewhere. -/
theorem wirbleExprFoldConstants_cases (expr : WirbleExpr) :
    (∃ value, wirbleExprFoldConstants expr = .int value) ∨
      (wirbleExprFoldConstants expr).divides = true := by
  cases expr with
  | int value => exact .inl ⟨value, rfl⟩
  | unary op operand => exact wirbleExprFolded_cases _
  | binary op lhs rhs => exact wirbleExprFolded_cases _

/-! What lowering builds. -/

/-- Fresh nodes that only refer to nodes of the graph created before them. -/
abbrev Grows : WILContext → WILContext → Prop := Built 0 fun _ => False

/-- Growing keeps the references of a graph in order. -/
theorem Built.ordered {before after : WILContext} (grows : Grows before after)
    (ordered : before.Ordered) : after.Ordered := by
  intro user _ target member
  -- An old node keeps its targets, and a new one refers to nodes in front of it.
  rcases Nat.lt_or_ge user before.graph.length with old | new
  · rw [grows.targets user old] at member
    exact ordered user old target member
  · obtain ⟨earlier, rfl, -, less⟩ := (grows.fresh user new target member).resolve_left id
    exact decide_eq_true less

/-- A node built from nodes of the graph. -/
theorem grows_build {ctx : WILContext} (consistent : DefUse ctx) {kind : WILNodeKind}
    {type : WILType} {name : Option String} {payload : WILNodePayload}
    {inputs : List (Option Nat × WILEdgeKind)} (shape : kind.arity = none → inputs = [])
    (present : ∀ target ∈ inputs.map (·.1), ∃ ref, target = some ref ∧ ref < ctx.graph.length) :
    Grows ctx (wilBuild ctx kind type name payload inputs).1 := by
  refine .build consistent kind type name payload inputs (fun target member => ?_)
    (fun target member => ?_) shape
  -- All inputs are nodes of the graph, which are as good as bound.
  · obtain ⟨ref, same, inside⟩ := present _ member
    cases same
    exact inside
  · obtain ⟨ref, same, -⟩ := present target member
    exact .inr ⟨ref, same, Nat.zero_le _⟩

/-- An operator on a node only adds to the graph. -/
theorem grows_unary {ctx : WILContext} (consistent : DefUse ctx) {kind : WILNodeKind}
    (operator : kind.arity.isSome = true) {value : Nat} (inside : value < ctx.graph.length) :
    Grows ctx (wilMakeUnary ctx kind (some value)).1 := by
  refine grows_build consistent (fun leaf => ?_) fun target member => ?_
  · rw [leaf] at operator
    cases operator
  · exact ⟨value, List.mem_singleton.mp member, inside⟩

/-- An operator on two nodes only adds to the graph. -/
theorem grows_binary {ctx : WILContext} (consistent : DefUse ctx) {kind : WILNodeKind}
    (operator : kind.arity.isSome = true) {left right : Nat} (first : left < ctx.graph.length)
    (second : right < ctx.graph.length) :
    Grows ctx (wilMakeBinary ctx kind (some left) (some right)).1 := by
  refine grows_build consistent (fun leaf => ?_) fun target member => ?_
  · rw [leaf] at operator
    cases operator
  · -- The slots are the two operands, from left to right.
    rcases List.mem_cons.mp member with same | last
    · exact ⟨left, same, first⟩
    · exact ⟨right, List.mem_singleton.mp last, second⟩

/-- Every operator of the source has a fixed number of inputs. -/
theorem WirbleBinaryOp.kind_arity (op : WirbleBinaryOp) : op.kind.arity.isSome = true := by
  cases op <;> rfl

/-- The kind of the node that a builder adds. -/
theorem kind_mem_build (ctx : WILContext) (kind : WILNodeKind) (type : WILType)
    (name : Option String) (payload : WILNodePayload) (inputs : List (Option Nat × WILEdgeKind)) :
    ∃ node ∈ (wilBuild ctx kind type name payload inputs).1.graph, node.kind = kind := by
  -- The last node is the one that was built.
  have core := core_build ctx kind type name payload inputs ctx.graph.length
  rw [if_pos rfl] at core
  obtain ⟨node, found, same⟩ := Option.map_eq_some_iff.mp core
  have kinds : node.core.kind = kind := by rw [same]
  exact ⟨node, List.mem_of_getElem? found, kinds⟩

/-- Nodes of a kind remain while the records of a graph do. -/
theorem kind_mem_of_cores {before after : WILContext}
    (cores : ∀ ref < before.graph.length,
      (after.graph[ref]?).map WILNode.core = (before.graph[ref]?).map WILNode.core)
    {kind : WILNodeKind} (present : ∃ node ∈ before.graph, node.kind = kind) :
    ∃ node ∈ after.graph, node.kind = kind := by
  obtain ⟨node, member, rfl⟩ := present
  obtain ⟨node', member', same, -⟩ := mem_of_cores cores member
  exact ⟨node', member', same⟩

/-- What lowering an expression leaves: the node it returns is one of the graph, and every division
has a node. -/
structure WirbleLowered (before : WILContext) (expr : WirbleExpr) (result : WILContext × Nat) :
    Prop where
  grows : Grows before result.1
  inside : result.2 < result.1.graph.length
  divisions : expr.divides = true → ∃ node ∈ result.1.graph, node.kind = .div

/-- Lowering an expression builds a graph of its operators. -/
theorem wirbleLowerExpr_lowered {ctx : WILContext} (consistent : DefUse ctx) (expr : WirbleExpr) :
    WirbleLowered ctx expr (wirbleLowerExpr ctx expr) := by
  -- The induction is on the tree, with the graph that the operands before it have left.
  induction expr generalizing ctx with
  | int value =>
    refine ⟨grows_build consistent (fun _ => rfl) nofun, ?_, nofun⟩
    show ctx.graph.length < (wilBuild ctx .constInt .i32 none (.int value.toInt) []).1.graph.length
    rw [length_build]
    omega
  | unary op operand next =>
    cases op
    -- The operand is lowered first, and its node is inside the graph that is left.
    obtain ⟨grows, inside, divisions⟩ := next consistent
    rw [wirbleLowerExpr]
    generalize wirbleLowerExpr ctx operand = result at grows inside divisions
    obtain ⟨middle, value⟩ := result
    have built : Grows middle (wilMakeUnary middle .neg (some value)).1 :=
      grows_unary grows.consistent rfl inside
    refine ⟨grows.trans built, ?_, fun divides => kind_mem_of_cores built.core (divisions divides)⟩
    show middle.graph.length < (wilBuild middle .neg _ none .zero _).1.graph.length
    rw [length_build]
    omega
  | binary op lhs rhs left right =>
    -- The operands are lowered one after the other.
    obtain ⟨growsLeft, insideLeft, divisionsLeft⟩ := left consistent
    rw [wirbleLowerExpr]
    generalize wirbleLowerExpr ctx lhs = result at growsLeft insideLeft divisionsLeft
    obtain ⟨first, x⟩ := result
    obtain ⟨growsRight, insideRight, divisionsRight⟩ := right growsLeft.consistent
    simp only
    generalize wirbleLowerExpr first rhs = result at growsRight insideRight divisionsRight
    obtain ⟨second, y⟩ := result
    have built : Grows second (wilMakeBinary second op.kind (some x) (some y)).1 :=
      grows_binary growsRight.consistent op.kind_arity
        (Nat.lt_of_lt_of_le insideLeft growsRight.longer) insideRight
    refine ⟨(growsLeft.trans growsRight).trans built, ?_, fun divides => ?_⟩
    · show second.graph.length < (wilBuild second op.kind _ none .zero _).1.graph.length
      rw [length_build]
      omega
    -- A division is the operator itself, or lies in one of the operands.
    · simp only [WirbleExpr.divides, Bool.or_eq_true, beq_iff_eq] at divides
      rcases divides with (here | inLeft) | inRight
      · rw [here]
        exact kind_mem_build ..
      · exact kind_mem_of_cores (growsRight.trans built).core (divisionsLeft inLeft)
      · exact kind_mem_of_cores built.core (divisionsRight inRight)

end Wirble
