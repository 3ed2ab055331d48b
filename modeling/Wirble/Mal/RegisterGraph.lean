import Wirble.Mal.Params
import Wirble.Mal.Integers
import Wirble.Wrs.Normalize

/-! The graph that the registers of a lowered function describe, and what its nodes are worth. -/

namespace Wirble

open WILContext IntValue

/-- Words of 32 bits for the parameters, and no values for nodes that are no integers. -/
def wilWords (params : Nat → BitVec 32) : WILInterp (Option IntValue) :=
  wilIntegers 32 (fun index => some ⟨32, params index⟩) fun _ _ => none

section Registers

variable (src : WILGraph)

/-- The kinds that lowering gives an instruction with a register. -/
def WILNodeKind.isLowered (kind : WILNodeKind) : Bool := !kind.isSilent && kind != .returnNode

/-- The register behind those of the parameters and of the operators in front of a position. -/
def malNextRegister (position : Nat) : Nat :=
  ((malFindParamCount src).1 + (src.take position).countP (·.kind.isLowered)) % 2 ^ 32

/-- The register of a node: parameters are numbered first, and then the operators. -/
def malOwnRegister (position : Nat) : Nat :=
  match src[position]? with
  | none => 0
  | some node =>
    if node.kind = .param then (malFindParams (src.take position)).length % 2 ^ 32
    else if node.kind.isLowered then malNextRegister src position
    else 0

/-- A reader finds the register of a node that is created in front of it, and zero otherwise. -/
def malFoundRegister (reader position : Nat) : Nat :=
  if position < reader then malOwnRegister src position else 0

/-- The instruction of the node at a position writes the register. -/
def malWrites (reg position : Nat) : Bool :=
  match src[position]? with
  | none => false
  | some node =>
    node.kind.isLowered && malNextRegister src position == reg && reg != malInvalidReg

/-- The last node in front of a position that writes the register. -/
def malHolder (reg : Nat) : Nat → Option Nat
  | 0 => none
  | position + 1 =>
    if malWrites src reg position then some position else malHolder reg position

/-- Where an operand comes from. -/
inductive MALSource where
  /-- The immediate zero, which stands for the null pointer. -/
  | zero
  /-- A register as it is when the function is entered. -/
  | argument (reg : Nat)
  | node (ref : Nat)
  deriving DecidableEq, Repr

/-- What a register holds in front of a position. -/
def malHeld (reg position : Nat) : MALSource :=
  ((malHolder src reg position).map .node).getD (.argument reg)

/-- What a reader really reads for one of its inputs. -/
def malSource (reader : Nat) (input : Option Nat) : MALSource :=
  match input with
  | none => .zero
  | some position =>
    match src[position]? with
    | none => .zero
    | some node =>
      if node.isConst then .node position
      else malHeld src (malFoundRegister src reader position) reader

/-- What a return returns: a constant goes through a copy, unless the copy has no destination. -/
def malReturnSource (reader : Nat) (input : Option Nat) : MALSource :=
  match (wilNodeAt src input).map (·.isConst) with
  | some false => malSource src reader input
  | _ =>
    if malNextRegister src reader = malInvalidReg then .argument malInvalidReg
    else malSource src reader input

/-- The inputs of a node, as its instruction reads them. -/
def malSourceSucc : MALSource → List MALSource
  | .node ref => ((src[ref]?).elim [] wilLoweredReads).map (malSource src ref)
  | .zero | .argument _ => []

/-- The meaning of a node, where the opcode for absolute values has none. -/
def malSourceLabel (params : Nat → BitVec 32) :
    MALSource → List (Option IntValue) → Option IntValue
  | .zero, _ => some ⟨32, 0⟩
  | .argument reg, _ => if reg < (malFindParamCount src).1 then some ⟨32, params reg⟩ else none
  | .node ref, inputs => (src[ref]?).elim none fun node =>
    if node.kind = .abs then none else (wilWords params).denote node inputs

/-- The source has the value in the graph that the registers describe. -/
def MALSourceDenotes (params : Nat → BitVec 32) : MALSource → Option IntValue → Prop :=
  Dag.Denotes (malSourceLabel src params) (malSourceSucc src)

end Registers

section Grounded

variable {src : WILGraph}

/-- Registers are held by earlier nodes. -/
theorem malHolder_lt {reg position ref : Nat} (held : malHolder src reg position = some ref) :
    ref < position ∧ malWrites src reg ref = true := by
  -- Induction on the nodes in front, from the last one.
  induction position with
  | zero => cases held
  | succ position next =>
    rw [malHolder] at held
    split at held
    next writes =>
      cases held
      exact ⟨Nat.lt_succ_self _, writes⟩
    next other =>
      have earlier := next held
      exact ⟨by omega, earlier.2⟩

/-- A node writes the register that is next for it, unless that one is invalid. -/
theorem malWrites_some {reg position : Nat} {node : WILNode} (found : src[position]? = some node) :
    malWrites src reg position =
      (node.kind.isLowered && malNextRegister src position == reg && reg != malInvalidReg) := by
  rw [malWrites, found]

/-- A register is held by the node that wrote it last. -/
theorem malHeld_written {reg position : Nat} (written : malWrites src reg position = true) :
    malHeld src reg (position + 1) = .node position := by
  rw [malHeld, malHolder, written]
  rfl

/-- A node that does not write the register leaves it as it was. -/
theorem malHeld_unwritten {reg position : Nat} (unwritten : malWrites src reg position = false) :
    malHeld src reg (position + 1) = malHeld src reg position := by
  rw [malHeld, malHeld, malHolder, unwritten]
  rfl

/-- A register that nothing in front of a position writes is as it was at the start. -/
theorem malHeld_argument {reg position : Nat}
    (nobody : ∀ writer < position, malWrites src reg writer = false) :
    malHeld src reg position = .argument reg := by
  induction position with
  | zero => rfl
  -- Nothing writes it just before the position, so it holds what it held there.
  | succ position next =>
    rw [malHeld_unwritten (nobody position (Nat.lt_succ_self _))]
    exact next fun writer before => nobody writer (by omega)

/-- Constants have no inputs. -/
theorem malSourceSucc_const {position : Nat} {node : WILNode} (found : src[position]? = some node)
    (silent : node.kind.isSilent = true) : malSourceSucc src (.node position) = [] := by
  simp [malSourceSucc, found, wilLoweredReads, silent]

/-- Operators read earlier operators, so that the register graph has no infinite path. -/
theorem malSource_grounded (constants : ∀ (ref : Nat) (node : WILNode), src[ref]? = some node →
    node.isConst = true → node.kind.isSilent = true) : Dag.Grounded (malSourceSucc src) := by
  -- The sources without inputs come first; an operator then rests on the earlier ones.
  have leaf : ∀ source, malSourceSucc src source = [] →
      Acc (fun target source => Dag.Edge (malSourceSucc src) source target) source := by
    intro source empty
    refine ⟨source, fun target edge => ?_⟩
    rw [Dag.Edge, empty] at edge
    exact absurd edge List.not_mem_nil
  have inner : ∀ ref, Acc (fun target source => Dag.Edge (malSourceSucc src) source target)
      (MALSource.node ref) := by
    intro ref
    -- Strong induction on the position.
    induction ref using Nat.strongRecOn with
    | ind ref next =>
      refine ⟨_, fun target edge => ?_⟩
      obtain ⟨input, -, same⟩ := List.mem_map.mp edge
      cases target with
      | zero | argument reg => exact leaf _ rfl
      -- The edge leads to a constant, or to the node that holds the register.
      | node below =>
        unfold malSource at same
        split at same
        · cases same
        · split at same
          next => cases same
          next position node found =>
            split at same
            next const =>
              cases same
              exact leaf _ (malSourceSucc_const found (constants _ node found const))
            -- The holder of a register stands in front of its reader.
            next other =>
              unfold malHeld at same
              cases held : malHolder src (malFoundRegister src ref _) ref with
              | none =>
                rw [held] at same
                cases same
              | some holder =>
                rw [held] at same
                cases same
                exact next below (malHolder_lt held).1
  refine ⟨fun source => ?_⟩
  cases source with
  | zero | argument reg => exact leaf _ rfl
  | node ref => exact inner ref

end Grounded

/-! One round of lowering, seen from the registers. -/

section Rounds

variable {src : WILGraph}

/-- A node with a register takes a round of its own kind. -/
theorem malLowerNode_lowered (state : MALLowering) {node : WILNode}
    (lowered : node.kind.isLowered = true) :
    malLowerNode src state node = malLowerValue src state node := by
  unfold malLowerNode
  cases kind : node.kind <;> first | rfl | (rw [kind] at lowered; cases lowered)

/-- Parameters, constants and control nodes have no instruction and take no new register. -/
theorem malLowerNode_silent (state : MALLowering) {node : WILNode}
    (silent : node.kind.isSilent = true) :
    (malLowerNode src state node).insts = state.insts ∧
      (malLowerNode src state node).nextSSAReg = state.nextSSAReg := by
  unfold malLowerNode
  split
  case h_11 =>
    -- A parameter only takes a parameter register.
    unfold MALLowering.setReg
    split
    · exact ⟨rfl, rfl⟩
    · exact ⟨rfl, rfl⟩
  case h_12 kind =>
    rw [kind] at silent
    cases silent
  case h_13 =>
    cases kind : node.kind <;> simp_all [WILNodeKind.isSilent]
  all_goals exact ⟨rfl, rfl⟩

/-- Kinds are silent, returns, or get a register. -/
theorem WILNodeKind.silent_or_lowered {kind : WILNodeKind} (other : kind ≠ .returnNode) :
    kind.isSilent = true ∧ kind.isLowered = false ∨
      kind.isSilent = false ∧ kind.isLowered = true := by
  cases kind <;> first | exact absurd rfl other | decide

/-- No node in front of the position is a return. -/
def NoReturnBefore (src : WILGraph) (position : Nat) : Prop :=
  ∀ earlier < position, ∀ node, src[earlier]? = some node → node.kind ≠ .returnNode

/-- No return stands before an earlier place either. -/
theorem NoReturnBefore.mono {position later : Nat} (none : NoReturnBefore src later)
    (before : position ≤ later) : NoReturnBefore src position :=
  fun earlier inside => none earlier (by omega)

/-- Lowering a node takes one register. -/
theorem nextSSAReg_newReg (state : MALLowering) (opcode : MALOpcode) (type : MALType)
    (nodeCount id reg : Nat) (operands : List MALOperand) :
    ((state.newReg.emit opcode type reg operands).setReg nodeCount id reg).nextSSAReg =
      (state.nextSSAReg + 1) % 2 ^ 32 := by
  unfold MALLowering.setReg
  split
  · rfl
  · rfl

/-- Up to the first return, the next register follows those of the operators passed. -/
theorem nextSSAReg_at (position : Nat) (none : NoReturnBefore src position) :
    (malLoweredAt src position).nextSSAReg = malNextRegister src position := by
  -- The induction is on the rounds: operators take a register and silent nodes none.
  induction position with
  | zero =>
    show (malFindParamCount src).1 = ((malFindParamCount src).1 + 0) % 2 ^ 32
    have small : (malFindParamCount src).1 < 2 ^ 32 := Nat.mod_lt _ (by decide)
    omega
  | succ position next =>
    have earlier := next (none.mono (Nat.le_succ position))
    cases found : src[position]? with
    | none =>
      rw [malLoweredAt_past found, earlier, malNextRegister, malNextRegister, List.take_add_one,
        found]
      simp
    -- A silent node takes no register, and an operator takes one.
    | some node =>
      rw [malLoweredAt_succ found, malNextRegister, List.take_add_one, found]
      simp only [Option.toList_some, List.countP_append, List.countP_singleton]
      have other := none position (Nat.lt_succ_self position) node found
      cases WILNodeKind.silent_or_lowered other with
      | inl silent =>
        rw [(malLowerNode_silent _ silent.1).2, earlier, silent.2]
        rfl
      | inr lowered =>
        rw [malLowerNode_lowered _ lowered.2, malLowerValue, nextSSAReg_newReg, earlier,
          lowered.2, if_pos rfl, malNextRegister]
        omega

variable (identified : src.Identified)

include identified

/-- The table has the register that a reader finds for a node. -/
theorem nodeRegs_found {reader position : Nat} (none : NoReturnBefore src reader)
    (inside : position < src.length) :
    (malLoweredAt src reader).nodeRegs[position]? =
      some (malFoundRegister src reader position) := by
  unfold malFoundRegister
  split
  next before =>
    obtain ⟨node, found⟩ : ∃ node, src[position]? = some node :=
      ⟨_, List.getElem?_eq_getElem inside⟩
    obtain ⟨identity, -⟩ := inside_of_found identified found
    rw [malOwnRegister, found]
    dsimp only
    by_cases param : node.kind = .param
    · rw [if_pos param, malNodeRegister_param identified found param reader before]
    · rw [if_neg param]
      -- The node's own round writes the table, or leaves the zero of the start.
      have own := nextSSAReg_at position (none.mono (Nat.le_of_lt before))
      have zero := nodeRegs_early identified (Nat.le_refl position) inside
      rw [nodeRegs_late identified before, malLoweredAt_succ found,
        malLowerNode_nodeRegs _ identity inside, malRecorded, if_neg param]
      -- A silent node leaves the zero, and an operator writes its register.
      cases WILNodeKind.silent_or_lowered (none position before node found) with
      | inl silent =>
        rw [if_pos (.inl silent.1), silent.2]
        exact zero
      | inr lowered =>
        have operator : ¬ (node.kind.isSilent = true ∨ node.kind = .returnNode) := by
          intro either
          cases either with
          | inl silent =>
            rw [lowered.1] at silent
            cases silent
          | inr ret => exact none position before node found ret
        rw [if_neg operator, lowered.2, own]
        show ((malLoweredAt src position).nodeRegs.set position _)[position]? = _
        rw [List.getElem?_set_self (by rwa [length_nodeRegs identified])]
        rfl
  next early => exact nodeRegs_early identified (Nat.not_lt.mp early) inside

end Rounds

end Wirble
