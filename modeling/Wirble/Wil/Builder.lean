import Wirble.Wil.Graph

/-! The public node builders. -/

namespace Wirble

/-- Append the listed inputs to a node, first to last. -/
def addInputs (node : Nat) :
    List (Option Nat × WILEdgeKind) → WILContext → WILContext
  | [], ctx => ctx
  | (input, edgeKind) :: rest, ctx => addInputs node rest (wilNodeAddInput ctx node input edgeKind)

/-- Create a node with a payload and give it its inputs. -/
def wilBuild (ctx : WILContext) (kind : WILNodeKind) (type : WILType) (name : Option String)
    (payload : WILNodePayload) (inputs : List (Option Nat × WILEdgeKind)) :
    WILContext × Nat :=
  let (created, node) := wilNodeCreate ctx kind type name payload
  (addInputs node inputs created, node)

/-- The type a builder gives from its hint and its first input. -/
def builtType (ctx : WILContext) (kind : WILNodeKind) (hint : WILType)
    (first : Option Nat) : WILType :=
  wilNodeKindDefaultType kind hint ((ctx.deref first).map (·.type))

/-- `wil_build_unary`: only a return takes its operand as a control edge. -/
def wilBuildUnary (ctx : WILContext) (kind : WILNodeKind) (operand : Option Nat)
    (typeHint : WILType) (payload : WILNodePayload := .zero) : WILContext × Nat :=
  wilBuild ctx kind (builtType ctx kind typeHint operand) none payload
    [(operand, if kind = .returnNode then .control else .data)]

/-- `wil_build_binary`. -/
def wilBuildBinary (ctx : WILContext) (kind : WILNodeKind) (lhs rhs : Option Nat)
    (typeHint : WILType) (payload : WILNodePayload := .zero) : WILContext × Nat :=
  wilBuild ctx kind (builtType ctx kind typeHint lhs) none payload [(lhs, .data), (rhs, .data)]

/-- `wil_build_nary`. -/
def wilBuildNary (ctx : WILContext) (kind : WILNodeKind)
    (inputs : List (Option Nat × WILEdgeKind)) (typeHint : WILType)
    (name : Option String := none) : WILContext × Nat :=
  wilBuild ctx kind (builtType ctx kind typeHint ((inputs.head?.map (·.1)).join)) name .zero inputs

/-- `wil_make_const_int`. -/
def wilMakeConstInt (ctx : WILContext) (value : Int) (type : WILType) : WILContext × Nat :=
  wilNodeCreate ctx .constInt type none (.int value)

/-- `wil_make_const_float`. -/
def wilMakeConstFloat (ctx : WILContext) (value : DoubleBits) (type : WILType) :
    WILContext × Nat :=
  wilNodeCreate ctx .constFloat type none (.float value)

/-- `wil_make_const_bool`: the stored value is zero or one. -/
def wilMakeConstBool (ctx : WILContext) (value : Bool) : WILContext × Nat :=
  wilNodeCreate ctx .constBool .i1 none (.bool value)

/-- `wil_make_undef`. -/
def wilMakeUndef (ctx : WILContext) (type : WILType) : WILContext × Nat :=
  wilNodeCreate ctx .undef type none

/-- `wil_make_param`. -/
def wilMakeParam (ctx : WILContext) (index : Nat) (type : WILType) (name : Option String) :
    WILContext × Nat :=
  wilNodeCreate ctx .param type name (.index index)

/-- The builders that `WIL_DEFINE_BINARY_BUILDER` generates, one for each binary kind. -/
def wilMakeBinary (ctx : WILContext) (kind : WILNodeKind) (lhs rhs : Option Nat) :
    WILContext × Nat :=
  wilBuildBinary ctx kind lhs rhs .void

/-- The builders that `WIL_DEFINE_UNARY_BUILDER` generates, one for each unary kind. -/
def wilMakeUnary (ctx : WILContext) (kind : WILNodeKind) (operand : Option Nat) :
    WILContext × Nat :=
  wilBuildUnary ctx kind operand .void

/-- `wil_make_load`. -/
def wilMakeLoad (ctx : WILContext) (address effect : Option Nat) (type : WILType) :
    WILContext × Nat :=
  wilBuildNary ctx .load [(address, .data), (effect, .effect)] type

/-- `wil_make_store`. -/
def wilMakeStore (ctx : WILContext) (address value effect : Option Nat) :
    WILContext × Nat :=
  wilBuildNary ctx .store [(address, .data), (value, .data), (effect, .effect)] .void

/-- The number of a value type in the source's enumeration. -/
def WILType.code : WILType → Nat
  | .void => 0 | .i1 => 1 | .i8 => 2 | .i16 => 3 | .i32 => 4 | .i64 => 5
  | .f32 => 6 | .f64 => 7 | .ptr => 8 | .control => 9

/-- `wil_make_alloca`: the allocated type is the payload, and a null size adds no slot. -/
def wilMakeAlloca (ctx : WILContext) (type : WILType) (size : Option Nat) :
    WILContext × Nat :=
  wilBuild ctx .alloca .ptr none (.index type.code)
    (match size with
      | none => []
      | some size => [(some size, .data)])

/-- `wil_make_start`. -/
def wilMakeStart (ctx : WILContext) : WILContext × Nat :=
  wilNodeCreate ctx .start .control (some "start")

/-- `wil_make_return`. -/
def wilMakeReturn (ctx : WILContext) (control value : Option Nat) :
    WILContext × Nat :=
  wilBuildNary ctx .returnNode [(control, .control), (value, .data)] .control

/-- `wil_make_jump`. -/
def wilMakeJump (ctx : WILContext) (control target : Option Nat) :
    WILContext × Nat :=
  wilBuildNary ctx .jump [(control, .control), (target, .control)] .control

/-- `wil_make_region`. -/
def wilMakeRegion (ctx : WILContext) (controls : List (Option Nat)) :
    WILContext × Nat :=
  wilBuildNary ctx .region (controls.map (·, .control)) .control

/-- `wil_make_if`. -/
def wilMakeIf (ctx : WILContext) (control condition : Option Nat) :
    WILContext × Nat :=
  wilBuildNary ctx .ifNode [(control, .control), (condition, .data)] .control

/-- `wil_make_loop`. -/
def wilMakeLoop (ctx : WILContext) (entryControl : Option Nat) :
    WILContext × Nat :=
  wilBuildNary ctx .loop [(entryControl, .control)] .control

/-- `wil_make_proj`. -/
def wilMakeProj (ctx : WILContext) (control : Option Nat) (index : Nat) :
    WILContext × Nat :=
  wilBuildUnary ctx .proj control .control (.index index)

/-- `wil_make_phi`: the type is that of the first value. -/
def wilMakePhi (ctx : WILContext) (region : Option Nat)
    (values : List (Option Nat)) : WILContext × Nat :=
  wilBuild ctx .phi (wilNodeType (ctx.deref values.head?.join)) none .zero
    ((region, .control) :: values.map (·, .data))

/-- `wil_make_call`. -/
def wilMakeCall (ctx : WILContext) (control effect : Option Nat) (callee : Option String)
    (args : List (Option Nat)) : WILContext × Nat :=
  wilBuild ctx .call .void callee .zero
    ((control, .control) :: (effect, .effect) :: args.map (·, .data))

/-- `wil_make_call_indirect`. -/
def wilMakeCallIndirect (ctx : WILContext) (control effect callee : Option Nat)
    (args : List (Option Nat)) : WILContext × Nat :=
  wilBuild ctx .callIndirect .void none .zero
    ((control, .control) :: (effect, .effect) :: (callee, .data) :: args.map (·, .data))

/-- `wil_make_cast`. -/
def wilMakeCast (ctx : WILContext) (value : Option Nat) (targetType : WILType) :
    WILContext × Nat :=
  wilBuildUnary ctx .cast value targetType

/-- `wil_make_bitcast`. -/
def wilMakeBitcast (ctx : WILContext) (value : Option Nat) (targetType : WILType) :
    WILContext × Nat :=
  wilBuildUnary ctx .bitcast value targetType

/-- `wil_make_extract`. -/
def wilMakeExtract (ctx : WILContext) (aggregate : Option Nat) (index : Nat) :
    WILContext × Nat :=
  wilBuildUnary ctx .extract aggregate .void (.index index)

/-- `wil_make_insert`: the hint is the aggregate's own type. -/
def wilMakeInsert (ctx : WILContext) (aggregate value : Option Nat) (index : Nat) :
    WILContext × Nat :=
  wilBuildBinary ctx .insert aggregate value (wilNodeType (ctx.deref aggregate)) (.index index)

/-- `wil_make_select`: the hint is the type of the true value. -/
def wilMakeSelect (ctx : WILContext) (condition trueVal falseVal : Option Nat) :
    WILContext × Nat :=
  wilBuildNary ctx .select [(condition, .data), (trueVal, .data), (falseVal, .data)]
    (wilNodeType (ctx.deref trueVal))

end Wirble
