import Mathlib.Data.List.Basic

/-! Kinds, types and stored data of WIL nodes. -/

namespace Wirble

/-- Specific node kinds, in the order of the source's enumeration. -/
inductive WILNodeKind where
  | constInt | constFloat | constBool | undef
  | param
  | add | sub | mul | div | mod | and | or | xor | shl | shr
  | neg | not | abs
  | eq | ne | lt | le | gt | ge
  | load | store | alloca
  | start | region | ifNode | loop | returnNode | jump | proj
  | phi
  | call | callIndirect
  | cast | bitcast
  | extract | insert
  | select
  deriving DecidableEq, Repr

/-- Node categories. -/
inductive WILNodeCategory where
  | value | control | effect | constant | parameter
  deriving DecidableEq, Repr

/-- Value types. -/
inductive WILType where
  | void | i1 | i8 | i16 | i32 | i64 | f32 | f64 | ptr | control
  deriving DecidableEq, Repr

/-- Dependency kinds of input slots. -/
inductive WILEdgeKind where
  | data | control | effect
  deriving DecidableEq, Repr

/-- The bits of an IEEE double, which the source only stores and compares. -/
abbrev DoubleBits := BitVec 64

/-- Whether the bits of a double encode a number. -/
def DoubleBits.isNumber (bits : DoubleBits) : Bool :=
  bits.extractLsb' 52 11 != 0x7ff#11 || bits.extractLsb' 0 52 == 0#52

/-- The comparison `==` of doubles: no number equals nothing, and the two zeros are equal. -/
def DoubleBits.equal (x y : DoubleBits) : Bool :=
  x.isNumber && y.isNumber && (x == y || x.extractLsb' 0 63 == 0#63 && y.extractLsb' 0 63 == 0#63)

/-- The union stored in a node, with the member its builder writes. -/
inductive WILNodePayload where
  /-- No builder wrote the union, so it keeps the zeros of its allocation. -/
  | zero
  | int (value : Int)
  | float (value : DoubleBits)
  | bool (value : Bool)
  | index (value : Nat)
  deriving DecidableEq, Repr

/-- One input of a node, where `none` is the null pointer. -/
structure WILInputSlot where
  -- A node pointer is the node's position in the graph's node array.
  node : Option Nat
  edgeKind : WILEdgeKind
  deriving DecidableEq, Repr

/-- A stored node, with its input slots and its use list. -/
structure WILNode where
  /-- Identity of the owning context. -/
  context : Nat
  id : Nat
  kind : WILNodeKind
  category : WILNodeCategory
  type : WILType
  name : Option String
  inputs : List WILInputSlot
  /-- Users of the node, never null because only registration appends to the list. -/
  uses : List Nat
  payload : WILNodePayload
  /-- The flag `WIL_NODE_FLAG_REMOVED`. -/
  removed : Bool
  deriving DecidableEq, Repr

/-- A graph is its array of nodes, in creation order. -/
abbrev WILGraph := List WILNode

/-- A context owns one graph and the text of its last verification error. -/
structure WILContext where
  /-- Identity that created nodes record as their owner. -/
  self : Nat
  graph : WILGraph
  verifyError : Option String
  deriving DecidableEq, Repr

/-- The category assigned to a node of the given kind. -/
def wilNodeKindCategory : WILNodeKind → WILNodeCategory
  | .constInt | .constFloat | .constBool | .undef => .constant
  | .param => .parameter
  | .start | .region | .ifNode | .loop | .returnNode | .jump | .proj => .control
  | .store | .call | .callIndirect => .effect
  | _ => .value

/-- The result type of a node, from the builder's hint and the type of its first input. -/
def wilNodeKindDefaultType (kind : WILNodeKind) (hint : WILType) (lhs : Option WILType) :
    WILType :=
  if hint ≠ .void then hint
  else
    match kind with
    | .constBool | .eq | .ne | .lt | .le | .gt | .ge => .i1
    | .start | .region | .ifNode | .loop | .returnNode | .jump | .proj => .control
    | .store | .call | .callIndirect => .void
    | .alloca | .load | .extract | .insert | .cast | .bitcast | .select | .phi =>
      -- A null first input leaves memory and aggregate operations with the pointer type.
      lhs.getD .ptr
    | _ => lhs.getD .i32

namespace WILNode

/-- The test on the category that `wil_node_is_const` performs. -/
def isConst (node : WILNode) : Bool := node.category == .constant

/-- The integer of a constant node, and zero for every other kind. -/
def constInt (node : WILNode) : Int :=
  match node.kind, node.payload with
  | .constInt, .int value => value
  | _, _ => 0

/-- The double of a float constant, and zero for every other kind. -/
def constFloat (node : WILNode) : DoubleBits :=
  match node.kind, node.payload with
  | .constFloat, .float value => value
  | _, _ => 0

/-- The truth value of a boolean constant, and false for every other kind. -/
def constBool (node : WILNode) : Bool :=
  match node.kind, node.payload with
  | .constBool, .bool value => value
  | _, _ => false

/-- The stored index of a parameter, projection or aggregate access. -/
def indexValue (node : WILNode) : Nat :=
  match node.payload with
  | .index value => value
  | _ => 0

/-- The targets of the input slots, in slot order. -/
def targets (node : WILNode) : List (Option Nat) := node.inputs.map (·.node)

end WILNode

end Wirble
