import Wirble.Mal.Ir
import Wirble.Wil.Builder

/-! Lowering of a node graph to a function of one block. -/

namespace Wirble

def malTypeFromWIL : WILType → MALType
  | .i1 => .i1
  | .i8 => .i8
  | .i16 => .i16
  | .i32 => .i32
  | .i64 => .i64
  | .f32 => .f32
  | .f64 => .f64
  | .ptr => .ptr
  | .void | .control => .void

/-- The types whose arithmetic has opcodes of its own. -/
def WILType.isFloat (type : WILType) : Bool := type == .f32 || type == .f64

def malOpcodeFromWIL (kind : WILNodeKind) (type : WILType) : MALOpcode :=
  match kind with
  | .add => if type.isFloat then .fadd else .add
  | .sub => if type.isFloat then .fsub else .sub
  | .mul => if type.isFloat then .fmul else .mul
  | .div => if type.isFloat then .fdiv else .sdiv
  | .mod => .srem
  | .neg => if type.isFloat then .fneg else .neg
  | .abs => if type.isFloat then .fabs else .target
  | .and => .and
  | .or => .or
  | .xor => .xor
  | .not => .not
  | .shl => .shl
  | .shr => .ashr
  | .eq => .icmpEq
  | .ne => .icmpNe
  | .lt => .icmpSlt
  | .le => .icmpSle
  | .gt => .icmpSgt
  | .ge => .icmpSge
  | .select => .select
  | .cast => .sext
  | .bitcast => .bitcast
  | .returnNode => .ret
  | _ => .target

/-- The parameter nodes, in the order of the node array. -/
def malFindParams (src : WILGraph) : List WILNode := src.filter (·.kind == .param)

/-- The types of the parameters are as many as their count, which has 32 bits. -/
def malFindParamCount (src : WILGraph) : Nat × List MALType :=
  let count := (malFindParams src).length % 2 ^ 32
  (count, ((malFindParams src).take count).map fun node => malTypeFromWIL node.type)

/-- A module without functions. -/
def malModuleCreate (triple : Option String) : MALModule := ⟨[], some (triple.getD "unknown")⟩

/-- Where the loop over the node array stands. Registers and identifiers have 32 bits. -/
structure MALLowering where
  insts : List MALInst
  nextSSAReg : Nat
  nextParamReg : Nat
  /-- The register of every node, which is zero until the node is lowered. -/
  nodeRegs : List Nat
  retType : MALType
  deriving DecidableEq, Repr

namespace MALLowering

/-- Insert an instruction at the end of the block, under the next identifier. -/
def emit (state : MALLowering) (opcode : MALOpcode) (type : MALType) (dst : Nat)
    (operands : List MALOperand) : MALLowering :=
  { state with
    insts := state.insts ++ [⟨state.insts.length % 2 ^ 32, opcode, type, dst, operands⟩] }

/-- `mal_new_reg`: the number of the register is the old count. -/
def newReg (state : MALLowering) : MALLowering :=
  { state with nextSSAReg := (state.nextSSAReg + 1) % 2 ^ 32 }

/-- Record the register of a node, if its identifier is one of the graph. -/
def setReg (state : MALLowering) (nodeCount id reg : Nat) : MALLowering :=
  if id ≠ 0 ∧ id ≤ nodeCount then { state with nodeRegs := state.nodeRegs.set (id - 1) reg }
  else state

end MALLowering

section Node

variable (src : WILGraph)

/-- The node that a pointer refers to, and nothing for the null pointer. -/
def wilNodeAt (input : Option Nat) : Option WILNode := input.bind (src[·]?)

/-- Constants become immediates, and every other input the register that its node has by now. -/
def malOperandFromWILInput (nodeRegs : List Nat) (input : Option Nat) : MALOperand :=
  match wilNodeAt src input with
  | none => malOperandImmInt 0 .i32
  | some node =>
    if node.isConst then
      match node.kind with
      | .constFloat => malOperandImmFloat node.constFloat (malTypeFromWIL node.type)
      | .constBool => malOperandImmInt (if node.constBool then 1 else 0) .i1
      | _ => malOperandImmInt node.constInt (malTypeFromWIL node.type)
    else if node.id = 0 ∨ src.length < node.id then malOperandImmInt 0 .i32
    else malOperandReg (nodeRegs.getD (node.id - 1) 0) (malTypeFromWIL node.type)

/-- A return of a value that is not in a register copies it into a new one first. -/
def malLowerReturn (state : MALLowering) (node : WILNode) : MALLowering :=
  match node.inputs[1]? with
  | none => state.emit .ret .void malInvalidReg []
  | some slot =>
    let type := malTypeFromWIL (wilNodeType (wilNodeAt src slot.node))
    let operand := malOperandFromWILInput src state.nodeRegs slot.node
    let returned :=
      match operand.payload with
      | .reg _ => state.emit .ret .void malInvalidReg [operand]
      | _ =>
        let reg := state.nextSSAReg
        (state.newReg.emit .copy type reg [operand]).emit .ret .void malInvalidReg
          [malOperandReg reg type]
    { returned with retType := type }

/-- The operands of an instruction: a conversion names its type, and control edges are left out. -/
def malLowerOperands (nodeRegs : List Nat) (node : WILNode) : List MALOperand :=
  if node.kind = .cast ∨ node.kind = .bitcast then
    [malOperandFromWILInput src nodeRegs ((node.inputs[0]?).bind (·.node)),
      ⟨.void, .asType (malTypeFromWIL node.type)⟩]
  else
    (node.inputs.filter fun slot => slot.edgeKind != .control).map fun slot =>
      malOperandFromWILInput src nodeRegs slot.node

/-- Any other node becomes one instruction with a new register. -/
def malLowerValue (state : MALLowering) (node : WILNode) : MALLowering :=
  let reg := state.nextSSAReg
  (state.newReg.emit (malOpcodeFromWIL node.kind node.type) (malTypeFromWIL node.type) reg
    (malLowerOperands src state.nodeRegs node)).setReg src.length node.id reg

/-- One round of the loop over the node array. -/
def malLowerNode (state : MALLowering) (node : WILNode) : MALLowering :=
  match node.kind with
  | .start | .region | .ifNode | .loop | .jump | .proj => state
  | .constInt | .constFloat | .constBool | .undef => state
  | .param =>
    -- The next parameter register is taken only if it is recorded.
    if node.id ≠ 0 ∧ node.id ≤ src.length then
      { state.setReg src.length node.id state.nextParamReg with
        nextParamReg := (state.nextParamReg + 1) % 2 ^ 32 }
    else state
  | .returnNode => malLowerReturn src state node
  | _ => malLowerValue src state node

/-- Parameters take the first registers, and no node has a register of its own yet. -/
def malLowerStart : MALLowering where
  insts := []
  nextSSAReg := (malFindParamCount src).1
  nextParamReg := 0
  nodeRegs := List.replicate src.length 0
  retType := .void

/-- The loop over the node array. -/
def malLowerNodes : MALLowering := src.foldl (malLowerNode src) (malLowerStart src)

/-- Every node of the array is lowered into one block, whether the return needs it or not. -/
def malLowerFromWIL (dst : MALModule) : MALModule :=
  let lowered := malLowerNodes src
  { dst with
    functions := dst.functions ++
      [{ name := "wil_main"
         retType := lowered.retType
         paramTypes := (malFindParamCount src).2
         paramCount := (malFindParamCount src).1
         blocks := [⟨0, lowered.insts, [], []⟩]
         nextSSAReg := lowered.nextSSAReg }] }

end Node

/-- The kinds that lowering emits no instruction for. -/
def WILNodeKind.isSilent : WILNodeKind → Bool
  | .start | .region | .ifNode | .loop | .jump | .proj | .constInt | .constFloat | .constBool
  | .undef | .param => true
  | _ => false

section Emits

variable {src : WILGraph}

/-- Noting the register of a node emits nothing. -/
@[simp] theorem insts_setReg (state : MALLowering) (nodeCount id reg : Nat) :
    (state.setReg nodeCount id reg).insts = state.insts := by
  rw [MALLowering.setReg]
  split <;> rfl

/-- A round only adds instructions at the end of the block. -/
theorem malLowerNode_insts (state : MALLowering) (node : WILNode) :
    ∃ more, (malLowerNode src state node).insts = state.insts ++ more := by
  -- The cases are those of the loop body.
  unfold malLowerNode
  split
  -- Control nodes and constants add nothing.
  case h_11 =>
    split
    · exact ⟨[], by simp⟩
    · exact ⟨[], by simp⟩
  case h_12 =>
    unfold malLowerReturn
    cases node.inputs[1]? with
    | none => exact ⟨_, rfl⟩
    | some slot =>
      simp only
      split
      · exact ⟨_, rfl⟩
      · -- A copy in front of the return.
        exact ⟨_, List.append_assoc _ _ _⟩
  case h_13 => exact ⟨_, by rw [malLowerValue, insts_setReg]; rfl⟩
  all_goals exact ⟨[], by simp⟩

/-- Instructions stay in the block while later nodes are lowered. -/
theorem mem_insts_foldl {inst : MALInst} (nodes : List WILNode) (state : MALLowering)
    (member : inst ∈ state.insts) : inst ∈ (nodes.foldl (malLowerNode src) state).insts := by
  induction nodes generalizing state with
  | nil => exact member
  | cons node rest next =>
    -- One node appends its instructions behind those that are there.
    obtain ⟨more, grown⟩ : ∃ more, (malLowerNode src state node).insts = state.insts ++ more :=
      malLowerNode_insts state node
    refine next _ ?_
    rw [grown]
    exact List.mem_append_left more member

/-- Every operator of the graph has an instruction in the block, also if nothing uses it. -/
theorem malLowerNodes_emits {node : WILNode} (member : node ∈ src)
    (operator : node.kind.isSilent = false) (other : node.kind ≠ .returnNode) :
    ∃ inst ∈ (malLowerNodes src).insts, inst.opcode = malOpcodeFromWIL node.kind node.type := by
  obtain ⟨front, back, split⟩ := List.append_of_mem member
  -- The round of the node comes after those of the nodes in front of it.
  have whole : malLowerNodes src = back.foldl (malLowerNode src)
      (malLowerNode src (front.foldl (malLowerNode src) (malLowerStart src)) node) := by
    show src.foldl (malLowerNode src) (malLowerStart src) = _
    conv_lhs => arg 3; rw [split]
    rw [List.foldl_append, List.foldl_cons]
  have value : ∀ state, malLowerNode src state node = malLowerValue src state node := by
    intro state
    unfold malLowerNode
    cases kind : node.kind <;> first | rfl | exact absurd kind other | skip
    all_goals rw [kind] at operator; cases operator
  rw [whole, value]
  -- The round of the node appends its instruction.
  generalize front.foldl (malLowerNode src) (malLowerStart src) = state
  have emitted : ∃ inst ∈ (malLowerValue src state node).insts,
      inst.opcode = malOpcodeFromWIL node.kind node.type := by
    rw [malLowerValue, insts_setReg]
    exact ⟨_, List.mem_append_right _ (.head _), rfl⟩
  obtain ⟨inst, placed, opcode⟩ := emitted
  exact ⟨inst, mem_insts_foldl back _ placed, opcode⟩

end Emits

end Wirble
