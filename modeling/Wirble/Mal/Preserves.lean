import Wirble.Mal.RegisterGraph

/-! What a lowered function returns, in terms of the graph that its registers describe. -/

namespace Wirble

open WILContext IntValue

/-- Nodes of 32-bit integers: constants, parameters, operators, and control without regions. -/
def WILNode.isInteger (node : WILNode) : Bool :=
  match node.kind with
  | .constInt | .param => node.type == .i32
  | .start | .returnNode => true
  | kind => kind.arity.isSome && !node.type.isFloat

/-- A graph of integers with one return, and with parameters that are created in index order. -/
structure IntegerGraph (src : WILGraph) : Prop where
  nodes : ∀ (ref : Nat) (node : WILNode), src[ref]? = some node → node.isInteger = true
  ordered : ∀ (rank : Nat) (a : WILNode), (malFindParams src)[rank]? = some a →
    a.indexValue = rank
  oneReturn : ∀ (p q : Nat) (a b : WILNode), src[p]? = some a → src[q]? = some b →
    a.kind = .returnNode → b.kind = .returnNode → p = q

/-- Integer constants are the only constants of such a graph. -/
theorem WILNode.isInteger_const {node : WILNode} (integer : node.isInteger = true)
    (category : node.category = wilNodeKindCategory node.kind) :
    node.isConst = true ↔ node.kind = .constInt := by
  rw [WILNode.isConst, category]
  unfold WILNode.isInteger at integer
  cases kind : node.kind <;> first | decide | (rw [kind] at integer; cases integer)

/-- A node with a register is an operator on integers. -/
theorem WILNode.isInteger_lowered {node : WILNode} (integer : node.isInteger = true)
    (lowered : node.kind.isLowered = true) :
    node.kind.arity.isSome = true ∧ node.type.isFloat = false := by
  unfold WILNode.isInteger at integer
  -- Other kinds are excluded by having no register, or by having no arity.
  cases kind : node.kind <;> rw [kind] at lowered integer <;>
    first
      | exact absurd lowered (by decide)
      | exact ⟨rfl, by simpa [WILNodeKind.arity] using integer⟩
      | exact absurd integer (by simp [WILNodeKind.arity])

/-- Operators are no conversions. -/
theorem WILNodeKind.not_conversion {kind : WILNodeKind} (operator : kind.arity.isSome = true) :
    ¬(kind = .cast ∨ kind = .bitcast) := by
  intro either
  cases either with
  | inl cast | inr cast =>
    rw [cast] at operator
    cases operator

/-- The instruction of an operator reads all inputs but those of control. -/
theorem wilLoweredReads_lowered {node : WILNode} (lowered : node.kind.isLowered = true)
    (operator : node.kind.arity.isSome = true) :
    wilLoweredReads node =
      (node.inputs.filter fun slot => slot.edgeKind != .control).map (·.node) := by
  -- The kind writes a register, so it is neither silent nor a return.
  have loud : ¬ node.kind.isSilent = true := by
    intro silent
    rw [WILNodeKind.isLowered, silent] at lowered
    cases lowered
  have stays : ¬ node.kind = .returnNode := by
    intro ret
    rw [ret] at lowered
    cases lowered
  rw [wilLoweredReads, if_neg loud, if_neg stays,
    if_neg (WILNodeKind.not_conversion operator)]

/-- Narrowing an immediate gives the constant at its own width. -/
theorem setWidth_immediate (value : Int) :
    (BitVec.ofInt 64 value).setWidth 32 = BitVec.ofInt 32 value := by
  apply BitVec.eq_of_toNat_eq
  rw [BitVec.toNat_setWidth, BitVec.toNat_ofInt, BitVec.toNat_ofInt]
  omega

/-- The register found for an input has 32 bits. -/
theorem malFoundRegister_lt (src : WILGraph) (reader position : Nat) :
    malFoundRegister src reader position < 2 ^ 32 := by
  -- A register is a parameter, one that was counted, or the invalid one.
  unfold malFoundRegister malOwnRegister malNextRegister
  split
  · split
    · decide
    · split
      · exact Nat.mod_lt _ (by decide)
      · split
        · exact Nat.mod_lt _ (by decide)
        · decide
  · decide

/-! Registers hold what the graph of sources says, up to the return. -/

section Simulation

variable {src : WILGraph} {params : Nat → BitVec 32} {value : MALSource → Option IntValue}

/-- The registers hold, in front of a node, the values of what they are said to hold. -/
def HeldValues (src : WILGraph) (value : MALSource → Option IntValue) (regs : MALRegisters)
    (position : Nat) : Prop :=
  ∀ reg < 2 ^ 32, regs reg = value (malHeld src reg position)

variable (graph : IntegerGraph src) (identified : src.Identified)
  (categories : ∀ (ref : Nat) (record : WILNode), src[ref]? = some record →
    record.category = wilNodeKindCategory record.kind)
  (valuation : Dag.IsValuation (malSourceLabel src params) (malSourceSucc src) value)

include graph categories valuation

/-- A constant of the graph is the immediate that lowering makes of it. -/
theorem malSource_constant {position : Nat} {node : WILNode} (found : src[position]? = some node)
    (const : node.isConst = true) (regs : MALRegisters) :
    node.kind = .constInt ∧
      malOperandInteger regs (malOperandImmInt node.constInt (malTypeFromWIL node.type)) =
        value (.node position) := by
  have integer := graph.nodes position node found
  have kind := (WILNode.isInteger_const integer (categories position node found)).mp const
  have type : node.type = .i32 := by
    unfold WILNode.isInteger at integer
    rw [kind] at integer
    simpa using integer
  refine ⟨kind, ?_⟩
  -- The immediate has the low 32 bits of the constant.
  rw [valuation, malSourceLabel, found, Option.elim_some, kind, type]
  show some (⟨32, (BitVec.ofInt 64 node.constInt).setWidth 32⟩ : IntValue) = _
  rw [setWidth_immediate]
  unfold WILInterp.denote
  rw [kind]
  rfl

include identified

/-- An operand has the value of the source that its reader really reads. -/
theorem malOperandInteger_read {regs : MALRegisters} {reader : Nat}
    (none : NoReturnBefore src reader) (held : HeldValues src value regs reader)
    (input : Option Nat) :
    malOperandInteger regs (malReadOperand src reader input) =
      value (malSource src reader input) := by
  -- The null pointer and pointers outside the graph become the immediate zero.
  have missing : wilNodeAt src input = .none →
      malOperandInteger regs (malReadOperand src reader input) = value .zero := by
    intro absent
    rw [malReadOperand, malOperandFromWILInput, absent, valuation]
    rfl
  cases input with
  | none => exact missing rfl
  | some position =>
    cases found : src[position]? with
    | none =>
      rw [malSource, found]
      exact missing found
    | some node =>
      obtain ⟨identity, inside⟩ := inside_of_found identified found
      rw [malSource, found, malReadOperand, malOperandFromWILInput,
        show wilNodeAt src (some position) = some node from found]
      dsimp only
      -- A constant becomes an immediate, any other node a register.
      cases const : node.isConst with
      | true =>
        obtain ⟨kind, same⟩ := malSource_constant graph categories valuation found const regs
        rw [if_pos rfl, if_pos rfl, kind]
        exact same
      | false =>
        have valid : ¬(node.id = 0 ∨ src.length < node.id) := by omega
        have place : node.id - 1 = position := by omega
        have small := malFoundRegister_lt src reader position
        rw [if_neg Bool.false_ne_true, if_neg valid, if_neg Bool.false_ne_true, place,
          List.getD_eq_getElem?_getD, nodeRegs_found identified none inside, Option.getD_some]
        show regs (BitVec.ofNat 32 (malFoundRegister src reader position)).toNat = _
        rw [BitVec.toNat_ofNat, Nat.mod_eq_of_lt small]
        exact held _ small

/-- The instruction of an operator computes what the node is worth among the sources. -/
theorem malOperator_node {regs : MALRegisters} {position : Nat} {node : WILNode}
    (found : src[position]? = some node) (lowered : node.kind.isLowered = true)
    (none : NoReturnBefore src position) (held : HeldValues src value regs position) :
    malOperator (malOpcodeFromWIL node.kind node.type)
        ((malLowerOperands src (malLoweredAt src position).nodeRegs node).map
          (malOperandInteger regs)) =
      value (.node position) := by
  -- Both sides apply the operator, to the operands and to the values of the sources.
  obtain ⟨operator, integer⟩ :=
    WILNode.isInteger_lowered (graph.nodes position node found) lowered
  -- The operator is no conversion, so all its inputs are operands.
  have other := WILNodeKind.not_conversion operator
  rw [malOperator_fromWIL operator integer, malLowerOperands, if_neg other, valuation,
    malSourceLabel, malSourceSucc, found, Option.elim_some, Option.elim_some,
    (wilWords params).denote_operator operator, wilLoweredReads_lowered lowered operator]
  have inputs : ((node.inputs.filter fun slot => slot.edgeKind != .control).map fun slot =>
        malOperandFromWILInput src (malLoweredAt src position).nodeRegs slot.node).map
          (malOperandInteger regs) =
      (((node.inputs.filter fun slot => slot.edgeKind != .control).map (·.node)).map
        (malSource src position)).map value := by
    rw [List.map_map, List.map_map, List.map_map]
    apply List.map_congr_left
    intro slot _
    exact malOperandInteger_read graph identified categories valuation none held slot.node
  rw [inputs]
  rfl

/-- One round keeps the registers in step with the sources. -/
theorem HeldValues.round {regs : MALRegisters} {position : Nat}
    (none : NoReturnBefore src (position + 1))
    (held : HeldValues src value (malRegsAfter regs (malLoweredAt src position).insts) position) :
    HeldValues src value (malRegsAfter regs (malLoweredAt src (position + 1)).insts)
      (position + 1) := by
  intro reg small
  have before := held reg small
  have earlier := none.mono (Nat.le_succ position)
  -- A round ends the list, passes over a node, or lowers it.
  cases found : src[position]? with
  | none => rw [malLoweredAt_past found, before, malHeld_unwritten (by rw [malWrites, found])]
  | some node =>
    have writes := @malWrites_some src reg position node found
    cases WILNodeKind.silent_or_lowered (none position (Nat.lt_succ_self _) node found) with
    -- A silent node writes no register.
    | inl silent =>
      have unwritten : malWrites src reg position = false := by
        rw [writes, silent.2]
        rfl
      rw [malLoweredAt_succ found, (malLowerNode_silent _ silent.1).1, before,
        malHeld_unwritten unwritten]
    -- An operator writes the next register, unless that one is the invalid number.
    | inr lowered =>
      have computed := malOperator_node graph identified categories valuation found lowered.2
        earlier held
      have next := nextSSAReg_at position earlier
      rw [malLoweredAt_succ found, malLowerNode_lowered _ lowered.2, malLowerValue, insts_setReg]
      show malRegsAfter regs ((malLoweredAt src position).insts ++ [_]) reg = _
      rw [malRegsAfter_append, malExecInteger, MALInst.defines]
      dsimp only
      rw [next]
      by_cases lost : malNextRegister src position = malInvalidReg
      · -- The last register number stands for no destination.
        have unwritten : malWrites src reg position = false := by
          rw [writes, lost]
          by_cases same : malInvalidReg = reg
          · simp [same]
          · simp [same]
        rw [if_pos lost, malHeld_unwritten unwritten]
        exact before
      · -- The destination holds the new value and the other registers what they held.
        rw [if_neg lost]
        dsimp only
        by_cases same : malNextRegister src position = reg
        · have written : malWrites src reg position = true := by
            rw [same] at lost
            simp [writes, lowered.2, same, lost]
          rw [malHeld_written written, same, Function.update_self, computed]
        · have unwritten : malWrites src reg position = false := by
            simp [writes, same]
          rw [malHeld_unwritten unwritten, Function.update_of_ne (Ne.symm same)]
          exact before

/-- The registers hold what they are said to hold in front of every node up to the return. -/
theorem malRegsAfter_held {fn : MALFunction} (count : fn.paramCount = (malFindParamCount src).1)
    (position : Nat) (none : NoReturnBefore src position) :
    HeldValues src value (malRegsAfter (fn.arguments params) (malLoweredAt src position).insts)
      position := by
  -- Induction on the rounds, from the arguments.
  induction position with
  | zero =>
    intro reg _
    rw [malHeld, malHolder, Option.map_none, Option.getD_none, valuation]
    show fn.arguments params reg = _
    rw [MALFunction.arguments, count]
    rfl
  | succ position next =>
    exact (next (none.mono (Nat.le_succ position))).round graph identified categories valuation
      none

omit identified categories valuation in
/-- No instruction in front of the first return node returns. -/
theorem malLoweredAt_no_ret (position : Nat) (none : NoReturnBefore src position) :
    ∀ inst ∈ (malLoweredAt src position).insts, inst.opcode ≠ .ret := by
  -- The induction is on the rounds, of which none lowers a return node.
  induction position with
  | zero =>
    intro inst member
    exact absurd member List.not_mem_nil
  | succ position next =>
    have earlier := next (none.mono (Nat.le_succ position))
    cases found : src[position]? with
    | none =>
      rw [malLoweredAt_past found]
      exact earlier
    | some node =>
      rw [malLoweredAt_succ found]
      cases WILNodeKind.silent_or_lowered (none position (Nat.lt_succ_self _) node found) with
      | inl silent =>
        rw [(malLowerNode_silent _ silent.1).1]
        exact earlier
      | inr lowered =>
        -- The opcode of an operator is no return.
        have operator :=
          (WILNode.isInteger_lowered (graph.nodes position node found) lowered.2).1
        rw [malLowerNode_lowered _ lowered.2, malLowerValue, insts_setReg]
        intro inst member
        cases List.mem_append.mp member with
        | inl front => exact earlier inst front
        | inr last =>
          rw [List.mem_singleton.mp last]
          exact malOpcodeFromWIL_ne_ret operator node.type

omit graph identified categories valuation in
/-- Later rounds add instructions behind those of earlier ones. -/
theorem malLoweredAt_insts {position later : Nat} (before : position ≤ later) :
    ∃ more, (malLoweredAt src later).insts = (malLoweredAt src position).insts ++ more := by
  induction later, before using Nat.le_induction with
  | base => exact ⟨[], by simp⟩
  | succ later _ next =>
    obtain ⟨more, grown⟩ := next
    -- A place past the end adds nothing.
    cases found : src[later]? with
    | none => exact ⟨more, by rw [malLoweredAt_past found, grown]⟩
    | some node =>
      obtain ⟨extra, added⟩ := @malLowerNode_insts src (malLoweredAt src later) node
      refine ⟨more ++ extra, ?_⟩
      rw [malLoweredAt_succ found, added, grown, List.append_assoc]

omit graph identified categories valuation in
/-- A register that stands for no destination is held by no instruction. -/
theorem malHeld_invalid (position : Nat) :
    malHeld src malInvalidReg position = .argument malInvalidReg := by
  apply malHeld_argument
  intro writer _
  unfold malWrites
  split
  · rfl
  · simp

omit valuation in
/-- Constants and null pointers become immediates, and other nodes registers. -/
theorem malOperandFromWILInput_payload (regs : List Nat) (input : Option Nat) :
    match (wilNodeAt src input).map (·.isConst) with
    | some false => ∃ reg, (malOperandFromWILInput src regs input).payload = .reg reg
    | _ => ∃ bits, (malOperandFromWILInput src regs input).payload = .immInt bits := by
  -- Integer graphs have constants that are integers, and identifiers within the graph.
  rw [malOperandFromWILInput]
  cases found : wilNodeAt src input with
  | none => exact ⟨_, rfl⟩
  | some node =>
    obtain ⟨position, -, here⟩ := Option.bind_eq_some_iff.mp found
    obtain ⟨identity, inside⟩ := inside_of_found identified here
    have integer := graph.nodes position node here
    have constants := WILNode.isInteger_const integer (categories position node here)
    rw [Option.map_some]
    cases const : node.isConst with
    | true =>
      -- A constant of the graph is an integer.
      dsimp only
      rw [if_pos const, constants.mp const]
      exact ⟨_, rfl⟩
    | false =>
      -- Any other node lies in the graph, so the table has its register.
      have valid : ¬(node.id = 0 ∨ src.length < node.id) := by omega
      dsimp only
      rw [if_neg (Bool.not_eq_true _ ▸ const), if_neg valid]
      exact ⟨_, rfl⟩

/-- A lowered function returns the value of the source that its return node really reads. -/
theorem malReturned_source {fn : MALFunction} (count : fn.paramCount = (malFindParamCount src).1)
    (insts : fn.insts = (malLowerNodes src).insts) {reader : Nat} {node : WILNode}
    {slot : WILInputSlot} (found : src[reader]? = some node) (ret : node.kind = .returnNode)
    (input : node.inputs[1]? = some slot) :
    malReturned (fn.arguments params) fn.insts = value (malReturnSource src reader slot.node) := by
  have none : NoReturnBefore src reader := by
    intro earlier before other present again
    have same := graph.oneReturn earlier reader other node present found again ret
    omega
  -- The registers hold the values of the sources when the return node is lowered.
  have held := malRegsAfter_held graph identified categories valuation count reader none
  have operand := malOperandInteger_read graph identified categories valuation none held slot.node
  have front := malLoweredAt_no_ret graph reader none
  have next := nextSSAReg_at reader none
  have small : malNextRegister src reader < 2 ^ 32 := Nat.mod_lt _ (by decide)
  -- The instructions are those in front, those of the return node, and some behind.
  obtain ⟨more, whole⟩ := @malLoweredAt_insts src _ _
    (Nat.succ_le_of_lt (List.getElem?_eq_some_iff.mp found).1)
  have round : malLowerNode src (malLoweredAt src reader) node =
      malLowerReturn src (malLoweredAt src reader) node := by
    unfold malLowerNode
    rw [ret]
  rw [insts, ← malLoweredAt_all, whole, malLoweredAt_succ found, round, malLowerReturn, input]
  dsimp only
  generalize read : malOperandFromWILInput src (malLoweredAt src reader).nodeRegs slot.node = it
  have payload := malOperandFromWILInput_payload graph identified categories
    (malLoweredAt src reader).nodeRegs slot.node
  rw [malReadOperand, read] at operand
  rw [read] at payload
  by_cases status : (wilNodeAt src slot.node).map (·.isConst) = some false
  · -- The value is in a register, which the return reads.
    rw [status] at payload
    obtain ⟨reg, payload⟩ := payload
    rw [payload, malReturnSource, status]
    show malReturned _ (((malLoweredAt src reader).insts ++ [_]) ++ more) = _
    rw [List.append_assoc, malReturned_append _ front, List.singleton_append,
      malReturned_ret _ rfl]
    exact operand
  · -- A copy takes the next register, and the return reads that.
    have copied : malReturnSource src reader slot.node =
        if malNextRegister src reader = malInvalidReg then .argument malInvalidReg
        else malSource src reader slot.node := by
      unfold malReturnSource
      split
      next other => exact absurd other status
      next => rfl
    -- What is copied is an immediate.
    have immediate : ∃ bits, it.payload = .immInt bits := by
      split at payload
      next other => exact absurd other status
      next => exact payload
    obtain ⟨bits, immediate⟩ := immediate
    rw [immediate, copied]
    show malReturned _ ((((malLoweredAt src reader).insts ++ [_]) ++ [_]) ++ more) = _
    rw [List.append_assoc, List.append_assoc, malReturned_append _ front, List.singleton_append,
      malReturned, if_neg (show ¬ MALOpcode.copy = .ret by decide), List.singleton_append,
      malReturned_ret _ rfl]
    show malExecInteger _ _ (BitVec.ofNat 32 (malLoweredAt src reader).nextSSAReg).toNat = _
    rw [next, BitVec.toNat_ofNat, Nat.mod_eq_of_lt small, malExecInteger, MALInst.defines]
    dsimp only
    -- The copy is lost when the next register is the invalid number.
    by_cases lost : malNextRegister src reader = malInvalidReg
    · rw [if_pos lost, if_pos lost, lost]
      have kept := held malInvalidReg (by decide)
      rw [malHeld_invalid] at kept
      exact kept
    · rw [if_neg lost, if_neg lost]
      dsimp only
      rw [Function.update_self]
      exact operand

end Simulation

end Wirble
