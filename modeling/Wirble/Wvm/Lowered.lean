import Wirble.Mal.CreationOrder
import Wirble.Wvm.Computes

/-! What the bytecode of a lowered graph returns, in terms of the graph alone. -/

namespace Wirble

open WILContext IntValue

/-! Registers of the two instruction semantics side by side. -/

/-- A copy denotes its operand. -/
theorem malDenote_copy (value : MALValue) : malDenote .copy [value] = some value := by
  cases value with
  | int value => rfl
  | truth value => cases value <;> rfl

/-- The integer that stands for a value of the target. -/
def MALValue.integer : MALValue → IntValue
  | .int value => ⟨32, value⟩
  | .truth value => IntValue.truth value

/-- The value of the target that an integer stands for, which has 32 bits or one bit. -/
def IntValue.target : IntValue → Option MALValue
  | ⟨32, value⟩ => some (.int value)
  | ⟨1, value⟩ => some (.truth (value == 1#1))
  | _ => none

/-- Registers of the target, read off registers that hold integers. -/
def MALRegisters.target (regs : MALRegisters) (reg : Nat) : Option MALValue :=
  (regs reg).bind IntValue.target

/-- The value of an integer in the target is the word. -/
@[simp] theorem IntValue.target_integer (value : MALValue) : value.integer.target = some value := by
  -- A truth value is the one bit that represents it.
  cases value with
  | int value => rfl
  | truth value => cases value <;> rfl

/-- Both semantics give an operation that denotes a value the same result. -/
theorem malOperator_denote {opcode : MALOpcode} {inputs : List MALValue} {value : MALValue}
    (denoted : malDenote opcode inputs = some value) :
    malOperator opcode (inputs.map fun input => some input.integer) = some value.integer := by
  -- In each case the opcode decides what both sides compute.
  rcases malDenote_cases denoted with ⟨x, rfl⟩ | ⟨x, y, rfl⟩ | ⟨x, rfl⟩ | ⟨x, y, rfl⟩
  · cases opcode <;> cases denoted <;> rfl
  · cases opcode <;> cases denoted <;> rfl
  · cases opcode <;> cases denoted <;> cases x <;> rfl
  · cases opcode <;> cases denoted <;> cases x <;> cases y <;> rfl

section Step

/-- An immediate of the target has 32 bits. -/
def MALOperand.Wide (operand : MALOperand) : Prop :=
  ∀ bits, operand.payload = .immInt bits → operand.type.width = 32

variable {regs : MALRegisters}

/-- Operands of that width have the same value in both semantics. -/
theorem malOperandValue_target {operand : MALOperand} (wide : operand.Wide) :
    malOperandValue regs.target operand =
      (malOperandInteger regs operand).bind IntValue.target := by
  unfold malOperandValue malOperandInteger
  -- An immediate has the width of its type, which is that of the target.
  cases payload : operand.payload with
  | reg reg => rfl
  | immInt bits =>
    have width := wide bits payload
    generalize operand.type.width = bound at width
    subst width
    rfl
  | _ => rfl

/-- Inputs of the target are what the operands are worth as integers. -/
theorem malInputs_target {inst : MALInst} {inputs : List MALValue}
    (wide : ∀ operand ∈ inst.operands, operand.Wide)
    (read : inst.operands.map (malOperandInteger regs) =
      inputs.map fun input => some input.integer) :
    malInputs regs.target inst = some inputs := by
  rw [malInputs, Dag.mapM_eq_some_iff]
  generalize inst.operands = operands at wide read
  -- Induction on the operands, next to the inputs.
  induction operands generalizing inputs with
  | nil =>
    rw [List.map_eq_nil_iff.mp read.symm]
    exact .nil
  | cons operand operands next =>
    cases inputs with
    | nil => cases read
    | cons input inputs =>
      simp only [List.map_cons, List.cons.injEq] at read
      rw [List.forall_mem_cons] at wide
      refine .cons ?_ (next wide.2 read.2)
      rw [malOperandValue_target wide.1, read.1, Option.bind_some, IntValue.target_integer]

/-- An instruction writes the same value in both semantics. -/
theorem malExecInteger_target {inst : MALInst} {inputs : List MALValue} {value : MALValue}
    (valid : inst.dst ≠ malInvalidReg)
    (read : inst.operands.map (malOperandInteger regs) =
      inputs.map fun input => some input.integer)
    (denoted : malDenote inst.opcode inputs = some value) :
    (malExecInteger regs inst).target = Function.update regs.target inst.dst (some value) := by
  funext reg
  rw [malExecInteger, MALInst.defines, if_neg valid]
  dsimp only
  rw [read, malOperator_denote denoted, MALRegisters.target]
  -- The destination holds the value, and the other registers are as before.
  by_cases same : reg = inst.dst
  · rw [same, Function.update_self, Function.update_self, Option.bind_some,
      IntValue.target_integer]
  · rw [Function.update_of_ne same, Function.update_of_ne same]
    rfl

/-- One instruction of the target later, registers still hold the same values. -/
theorem malRegsBefore_target {insts : List MALInst} {start : Nat → Option MALValue} {place : Nat}
    {inst : MALInst} {inputs : List MALValue} {value : MALValue}
    (before : malRegsBefore insts start place = some regs.target)
    (found : insts[place]? = some inst) (other : inst.opcode ≠ .ret)
    (valid : inst.dst ≠ malInvalidReg) (wide : ∀ operand ∈ inst.operands, operand.Wide)
    (read : inst.operands.map (malOperandInteger regs) =
      inputs.map fun input => some input.integer)
    (denoted : malDenote inst.opcode inputs = some value) :
    malRegsBefore insts start (place + 1) = some (malExecInteger regs inst).target := by
  -- The instruction reads the same values and denotes the same result.
  rw [malRegsBefore, before, malExecInteger_target valid read denoted]
  simp [found, other, malInputs_target wide read, denoted]

end Step

section Sequences

variable {front : List MALInst} {regs : Nat → Option MALValue}

/-- What comes later does not change what comes before. -/
theorem malRegsBefore_append (back : List MALInst) {place : Nat} (inside : place ≤ front.length) :
    malRegsBefore (front ++ back) regs place = malRegsBefore front regs place := by
  induction place with
  | zero => rfl
  | succ place next =>
    rw [malRegsBefore, malRegsBefore, next (by omega), List.getElem?_append_left (by omega)]

/-- Nothing is executed behind a return. -/
theorem malRegsBefore_ret {insts : List MALInst} {place later : Nat} {inst : MALInst}
    (found : insts[place]? = some inst) (ret : inst.opcode = .ret) (behind : place < later) :
    malRegsBefore insts regs later = none := by
  -- Induction on the places behind the return.
  induction later, behind using Nat.le_induction with
  | base =>
    rw [malRegsBefore]
    cases malRegsBefore insts regs place <;> simp [found, ret]
  | succ later _ next =>
    rw [malRegsBefore, next]
    rfl

/-- A sequence supports its inputs if its front does and its last instruction does. -/
theorem SupportsAll.concat {inst : MALInst} (supports : SupportsAll front regs)
    (last : ∀ now inputs value, malRegsBefore front regs front.length = some now →
      malInputs now inst = some inputs → malDenote inst.opcode inputs = some value →
        WVMSupports inst.opcode inputs) : SupportsAll (front ++ [inst]) regs := by
  intro place now other inputs value before found running read denoted
  have inside := (List.getElem?_eq_some_iff.mp found).1
  rw [List.length_append, List.length_singleton] at inside
  rw [malRegsBefore_append [inst] (by omega)] at before
  -- The place is inside the front, or is that of the last instruction.
  by_cases here : place < front.length
  · rw [List.getElem?_append_left here] at found
    exact supports place now other inputs value before found running read denoted
  · have end_ : place = front.length := by omega
    subst end_
    rw [List.getElem?_concat_length] at found
    cases found
    exact last now inputs value before read denoted

/-- Instructions from a return on need no support. -/
theorem SupportsAll.ret {inst : MALInst} (supports : SupportsAll front regs)
    (ret : inst.opcode = .ret) (back : List MALInst) :
    SupportsAll (front ++ inst :: back) regs := by
  intro place now other inputs value before found running read denoted
  have here : (front ++ inst :: back)[front.length]? = some inst := by simp
  -- The place is before the return, at it, or behind it, where nothing is executed.
  rcases Nat.lt_trichotomy place front.length with inside | same | behind
  · rw [malRegsBefore_append _ (Nat.le_of_lt inside)] at before
    rw [List.getElem?_append_left inside] at found
    exact supports place now other inputs value before found running read denoted
  · rw [same, here] at found
    cases found
    exact absurd ret running
  · rw [malRegsBefore_ret here ret behind] at before
    cases before

end Sequences

/-- Lists agree under two maps if related elements do. -/
theorem map_eq_of_forall₂ {α β γ : Type} {related : α → β → Prop} {f : α → γ} {g : β → γ}
    {list : List α} {list' : List β} (both : List.Forall₂ related list list')
    (same : ∀ a ∈ list, ∀ b, related a b → f a = g b) : list.map f = list'.map g := by
  induction both with
  | nil => rfl
  | cons head _ next =>
    rw [List.forall_mem_cons] at same
    rw [List.map_cons, List.map_cons, same.1 _ head, next same.2]

/-- One more instruction that computes a value and supports its inputs. -/
theorem SupportsAll.next {front : List MALInst} {start : Nat → Option MALValue}
    {words : MALRegisters} {inst : MALInst} {inputs : List MALValue} {value : MALValue}
    (supports : SupportsAll front start)
    (before : malRegsBefore front start front.length = some words.target)
    (other : inst.opcode ≠ .ret) (valid : inst.dst ≠ malInvalidReg)
    (wide : ∀ operand ∈ inst.operands, operand.Wide)
    (read : inst.operands.map (malOperandInteger words) = inputs.map fun input =>
      some input.integer)
    (denoted : malDenote inst.opcode inputs = some value)
    (supported : WVMSupports inst.opcode inputs) :
    malRegsBefore (front ++ [inst]) start (front ++ [inst]).length =
        some (malExecInteger words inst).target ∧
      SupportsAll (front ++ [inst]) start := by
  have inputs_eq := malInputs_target wide read
  constructor
  · rw [List.length_append, List.length_singleton]
    refine malRegsBefore_target ?_ List.getElem?_concat_length other valid wide read denoted
    rw [malRegsBefore_append [inst] (Nat.le_refl _), before]
  · refine supports.concat fun now inputs' value' here read' _ => ?_
    -- The registers and the inputs are those above.
    cases before.symm.trans here
    cases inputs_eq.symm.trans read'
    exact supported

/-- The instructions up to a return support their inputs, and the return reads the value. -/
def ReturnsValue (insts : List MALInst) (start : Nat → Option MALValue) (result : MALValue) :
    Prop :=
  SupportsAll insts start ∧ ∃ place now inst, malRegsBefore insts start place = some now ∧
    insts[place]? = some inst ∧ inst.opcode = .ret ∧ malInputs now inst = some [result]

/-- A return hands back the value of its operand. -/
theorem SupportsAll.returns {front : List MALInst} {start : Nat → Option MALValue}
    {words : MALRegisters} {inst : MALInst} {operand : MALOperand} {result : MALValue}
    (supports : SupportsAll front start)
    (before : malRegsBefore front start front.length = some words.target)
    (ret : inst.opcode = .ret) (operands : inst.operands = [operand]) (wide : operand.Wide)
    (read : malOperandInteger words operand = some result.integer) (back : List MALInst) :
    ReturnsValue (front ++ inst :: back) start result := by
  refine ⟨supports.ret ret back, front.length, words.target, inst, ?_, by simp, ret, ?_⟩
  -- The registers at the return are those of the source, and its operand is read from them.
  · rw [malRegsBefore_append _ (Nat.le_refl _), before]
  · apply malInputs_target
    · rw [operands, List.forall_mem_singleton]
      exact wide
    · rw [operands, List.map_singleton, read]
      rfl

/-! Graphs that fit the bytecode. -/

/-- A graph of integers in creation order, with registers and constants that fit the bytecode. -/
structure WVMGraph (ctx : WILContext) : Prop where
  integers : IntegerGraph ctx.graph
  ordered : ctx.Ordered
  fewer : (malFindParams ctx.graph).length + ctx.graph.length < 65534
  constants : ∀ (ref : Nat) (node : WILNode), ctx.graph[ref]? = some node →
    node.kind = .constInt → -2 ^ 31 ≤ node.constInt ∧ node.constInt ≤ 2 ^ 31 - 1
  data : ∀ (ref : Nat) (node : WILNode), ctx.graph[ref]? = some node →
    node.kind ≠ .returnNode → ∀ slot ∈ node.inputs, slot.edgeKind ≠ .control

/-- The operator has a value, and its opcode supports the values of its inputs. -/
def WVMComputes (ctx : WILContext) (params : Nat → BitVec 32) (ref : Nat) (node : WILNode) :
    Prop :=
  ∃ inputs value,
    List.Forall₂ (fun pointer (input : MALValue) =>
      ctx.Denotes (wilWords params) pointer (some input.integer)) (ctx.targets ref) inputs ∧
    malDenote (malOpcodeFromWIL node.kind node.type) inputs = some value ∧
      WVMSupports (malOpcodeFromWIL node.kind node.type) inputs

/-- The constants of a graph of integers are integers of 32 bits. -/
theorem IntegerGraph.constant {ctx : WILContext} (graph : IntegerGraph ctx.graph)
    (categories : ctx.Categories) {position : Nat} {node : WILNode}
    (found : ctx.graph[position]? = some node) (const : node.isConst = true) :
    node.kind = .constInt ∧ node.type = .i32 := by
  have integer := graph.nodes position node found
  have kind := (WILNode.isInteger_const integer (categories position node found)).mp const
  refine ⟨kind, ?_⟩
  -- The check of the node asks for the type of 32 bits.
  unfold WILNode.isInteger at integer
  rw [kind] at integer
  simpa using integer

/-- Operands of lowered nodes are as wide as the target. -/
theorem IntegerGraph.wide {ctx : WILContext} (graph : IntegerGraph ctx.graph)
    (categories : ctx.Categories) (regs : List Nat) (input : Option Nat) :
    (malOperandFromWILInput ctx.graph regs input).Wide := by
  intro bits payload
  rw [malOperandFromWILInput] at payload ⊢
  cases found : wilNodeAt ctx.graph input with
  | none => rfl
  | some node =>
    obtain ⟨position, -, here⟩ := Option.bind_eq_some_iff.mp found
    rw [found] at payload
    dsimp only at payload ⊢
    -- A constant has its type, and a register has every width.
    by_cases const : node.isConst = true
    · obtain ⟨kind, type⟩ := graph.constant categories here const
      rw [if_pos const, kind, type]
      rfl
    · rw [if_neg const] at payload ⊢
      split
      · rfl
      · -- A register is no immediate.
        rename_i valid
        rw [if_neg valid] at payload
        cases payload

namespace WVMGraph

variable {ctx : WILContext} (graph : WVMGraph ctx)

include graph

/-- Operands of lowered nodes fit the bytecode if the table of registers does. -/
theorem operand (categories : ctx.Categories) {regs : List Nat}
    (below : ∀ reg ∈ regs, reg < 65534) (input : Option Nat) :
    (∃ reg, (malOperandFromWILInput ctx.graph regs input).payload = .reg reg ∧
        reg.toNat < 65534) ∨
      ∃ value, (malOperandFromWILInput ctx.graph regs input).payload = .immInt value ∧
        -2 ^ 31 ≤ value.toInt ∧ value.toInt ≤ 2 ^ 31 - 1 := by
  rw [malOperandFromWILInput]
  cases found : wilNodeAt ctx.graph input with
  | none => exact .inr ⟨_, rfl, by decide⟩
  | some node =>
    obtain ⟨position, -, here⟩ := Option.bind_eq_some_iff.mp found
    dsimp only
    by_cases const : node.isConst = true
    · -- A constant becomes an immediate of its own value.
      obtain ⟨kind, -⟩ := graph.integers.constant categories here const
      obtain ⟨low, high⟩ := graph.constants position node here kind
      have exactly : (BitVec.ofInt 64 node.constInt).toInt = node.constInt := by
        rw [BitVec.toInt_ofInt]
        exact Int.bmod_eq_of_le (by omega) (by omega)
      rw [if_pos const, kind]
      refine .inr ⟨_, rfl, ?_⟩
      rw [exactly]
      exact ⟨low, high⟩
    · rw [if_neg const]
      split
      · exact .inr ⟨_, rfl, by decide⟩
      · -- Any other node is read from its register.
        refine .inl ⟨_, rfl, ?_⟩
        have small : regs.getD (node.id - 1) 0 < 65534 := by
          rw [List.getD_eq_getElem?_getD]
          cases entry : regs[node.id - 1]? with
          | none => exact Nat.zero_lt_succ _
          | some reg => exact below reg (List.mem_of_getElem? entry)
        rw [BitVec.toNat_ofNat, Nat.mod_eq_of_lt (by omega)]
        exact small

/-- Registers below a count, in the tables and in all instructions. -/
structure Below (count : Nat) (state : MALLowering) : Prop where
  next : state.nextSSAReg ≤ count
  param : state.nextParamReg ≤ count
  regs : ∀ reg ∈ state.nodeRegs, reg ≤ count
  insts : ∀ inst ∈ state.insts, inst.Small

omit graph in
/-- Noting a register that was given out stays below the count. -/
theorem Below.setReg {count : Nat} {state : MALLowering} (below : Below count state)
    (nodeCount id : Nat) {reg : Nat} (small : reg ≤ count) :
    Below count (state.setReg nodeCount id reg) := by
  unfold MALLowering.setReg
  split
  · refine ⟨below.next, below.param, fun other member => ?_, below.insts⟩
    -- The register is an old one, or the one that was noted.
    rcases List.mem_or_eq_of_mem_set member with old | rfl
    · exact below.regs other old
    · exact small
  · exact below

omit graph in
/-- A round that emits an instruction takes the next register for it. -/
theorem Below.emit {count : Nat} {state : MALLowering} (below : Below count state)
    {opcode : MALOpcode} {type : MALType} {dst : Nat} {operands : List MALOperand}
    (small : MALInst.Small ⟨state.insts.length % 2 ^ 32, opcode, type, dst, operands⟩) :
    Below count (state.emit opcode type dst operands) := by
  refine ⟨below.next, below.param, below.regs, ?_⟩
  intro inst member
  -- The instruction is an old one, or the one that was emitted.
  rcases List.mem_append.mp member with old | new
  · exact below.insts inst old
  · rw [List.mem_singleton.mp new]
    exact small

omit graph in
/-- A new register raises the bound by one. -/
theorem Below.newReg {count : Nat} {state : MALLowering} (below : Below count state) :
    Below (count + 1) state.newReg := by
  refine ⟨?_, Nat.le_succ_of_le below.param, fun reg member => ?_, below.insts⟩
  · exact (Nat.mod_le _ _).trans (Nat.succ_le_succ below.next)
  · exact Nat.le_succ_of_le (below.regs reg member)

/-- Every round keeps the registers below a count, which grows by one. -/
theorem round (categories : ctx.Categories) {count ref : Nat} {state : MALLowering}
    {node : WILNode} (below : Below count state) (fits : count + 1 < 65534)
    (found : ctx.graph[ref]? = some node) :
    Below (count + 1) (malLowerNode ctx.graph state node) := by
  have next := below.next
  have dst : state.nextSSAReg < 65534 := by omega
  have tables : ∀ reg ∈ state.nodeRegs, reg < 65534 :=
    fun reg member => Nat.lt_of_le_of_lt (below.regs reg member) (Nat.lt_of_succ_lt fits)
  have operand := graph.operand categories tables
  have later : Below (count + 1) state :=
    ⟨by omega, Nat.le_succ_of_le below.param,
      fun reg member => Nat.le_succ_of_le (below.regs reg member), below.insts⟩
  -- The cases are those of the loop body.
  unfold malLowerNode
  split
  case h_11 =>
    split
    -- A parameter takes the register of its index.
    · have taken := later.setReg ctx.graph.length node.id (Nat.le_succ_of_le below.param)
      refine ⟨taken.next, ?_, taken.regs, taken.insts⟩
      exact (Nat.mod_le _ _).trans (Nat.succ_le_succ below.param)
    · exact later
  case h_12 =>
    have retype : ∀ {state type}, Below (count + 1) state →
        Below (count + 1) { state with retType := type } :=
      fun below => ⟨below.next, below.param, below.regs, below.insts⟩
    -- A return reads its operand, or the copy of it.
    unfold malLowerReturn
    cases node.inputs[1]? with
    | none => exact later.emit ⟨fun _ member => absurd member List.not_mem_nil, .inl rfl⟩
    | some slot =>
      have small := operand slot.node
      dsimp only
      generalize malOperandFromWILInput ctx.graph state.nodeRegs slot.node = it at small
      split
      · refine retype (later.emit ⟨?_, .inl rfl⟩)
        rw [List.forall_mem_singleton]
        exact small
      · -- The copy of a constant is returned from its register.
        refine retype ((below.newReg.emit ⟨?_, .inr dst⟩).emit ⟨?_, .inl rfl⟩)
        · rw [List.forall_mem_singleton]
          exact small
        · rw [List.forall_mem_singleton]
          refine .inl ⟨_, rfl, ?_⟩
          rw [BitVec.toNat_ofNat, Nat.mod_eq_of_lt (by omega)]
          omega
  case h_13 =>
    -- An operator reads operands, and writes the next register.
    have integer := graph.integers.nodes ref node found
    have plain : ¬(node.kind = .cast ∨ node.kind = .bitcast) := by
      apply WILNodeKind.not_conversion
      refine (WILNode.isInteger_lowered integer ?_).1
      cases kind : node.kind <;> first | rfl | exact absurd kind (by assumption)
    refine Below.setReg (below.newReg.emit ⟨?_, .inr dst⟩) _ _ (by omega)
    intro it member
    rw [malLowerOperands, if_neg plain] at member
    obtain ⟨slot, -, rfl⟩ := List.mem_map.mp member
    exact operand slot.node
  all_goals exact later

/-- Everything that lowering emits fits the bytecode. -/
theorem small (categories : ctx.Categories) :
    ∀ inst ∈ (malLowerNodes ctx.graph).insts, inst.Small := by
  have fewer := graph.fewer
  have params : (malFindParamCount ctx.graph).1 ≤ (malFindParams ctx.graph).length :=
    Nat.mod_le _ _
  -- Induction on the rounds, from the registers of the parameters.
  have rounds : ∀ position ≤ ctx.graph.length,
      Below ((malFindParams ctx.graph).length + position) (malLoweredAt ctx.graph position) := by
    intro position inside
    induction position with
    | zero =>
      refine ⟨params, Nat.zero_le _, fun reg member => ?_, ?_⟩
      · rw [(List.mem_replicate.mp member).2]
        exact Nat.zero_le _
      · exact fun _ member => absurd member List.not_mem_nil
    -- A round in front of the end keeps all that is known.
    | succ position next =>
      have found := List.getElem?_eq_getElem (Nat.lt_of_succ_le inside)
      rw [malLoweredAt_succ found, ← Nat.add_assoc]
      exact graph.round categories (next (by omega)) (by omega) found
  rw [← malLoweredAt_all]
  exact (rounds _ (Nat.le_refl _)).insts

/-- In front of a return every node that a value needs is an operator with an opcode. -/
theorem createdInOrder {params : Nat → BitVec 32} {position target reader : Nat}
    (none : NoReturnBefore ctx.graph position)
    (computes : ∀ ref < position, ∀ node, ctx.graph[ref]? = some node →
      node.kind.isLowered = true → WVMComputes ctx params ref node)
    (inside : target < position) (before : target < reader) :
    CreatedInOrder ctx reader (some target) := by
  have fewer := graph.fewer
  refine graph.ordered.createdInOrder (by omega) before fun ref here node found => ⟨?_, ?_⟩
  · -- The opcode of an absolute value denotes nothing.
    intro abs
    have lowered : node.kind.isLowered = true := by
      rw [abs]
      rfl
    obtain ⟨inputs, value, -, denoted, -⟩ := computes ref (by omega) node found lowered
    have integer := WILNode.isInteger_lowered (graph.integers.nodes ref node found) lowered
    have denotes := malOperator_denote denoted
    rw [malOperator_fromWIL integer.1 integer.2, if_pos abs] at denotes
    cases denotes
  · exact graph.data ref node found (none ref (by omega) node found)

section Run

variable (identified : ctx.graph.Identified) (categories : ctx.Categories) {fn : MALFunction}
  (count : fn.paramCount = (malFindParamCount ctx.graph).1) {params : Nat → BitVec 32}

include identified categories count

/-- An operand has the value that its pointer denotes in the graph. -/
theorem operand_value {position : Nat} (none : NoReturnBefore ctx.graph position)
    (computes : ∀ ref < position, ∀ node, ctx.graph[ref]? = some node →
      node.kind.isLowered = true → WVMComputes ctx params ref node)
    {pointer : Option Nat} (before : pointer.all (· < position) = true) {result : IntValue}
    (denotes : ctx.Denotes (wilWords params) pointer (some result)) :
    malOperandInteger
        (malRegsAfter (fn.arguments params) (malLoweredAt ctx.graph position).insts)
        (malReadOperand ctx.graph position pointer) = some result := by
  -- Both graphs are acyclic, so that each has a valuation.
  have grounded := malSource_grounded_of_integer graph.integers categories
  obtain ⟨value, valuation⟩ := grounded.exists_valuation (malSourceLabel ctx.graph params)
  obtain ⟨denoted, (assigned : ctx.IsValuation (wilWords params) denoted)⟩ :=
    graph.ordered.acyclic.grounded.exists_valuation (ctx.label (wilWords params))
  have known : denoted pointer = some result := by
    obtain ⟨fuel, evaluated⟩ := denotes
    exact Dag.eval_eq_valuation assigned evaluated
  -- The registers hold the values of the sources.
  have held := malRegsAfter_held graph.integers identified categories valuation count position none
  rw [malOperandInteger_read graph.integers identified categories valuation none held]
  cases pointer with
  | none =>
    rw [assigned] at known
    cases known
  -- The node is created in front of its reader, so its source has its value.
  | some target =>
    rw [Option.all_some, decide_eq_true_eq] at before
    have order := graph.createdInOrder none computes before before
    exact order.value_eq graph.integers categories graph.ordered.acyclic valuation assigned .refl
      known position order.returned

/-- Up to a return, registers hold integers of the target, and all instructions support their
inputs. -/
theorem reaches {position : Nat} (none : NoReturnBefore ctx.graph position)
    (computes : ∀ ref < position, ∀ node, ctx.graph[ref]? = some node →
      node.kind.isLowered = true → WVMComputes ctx params ref node) :
    malRegsBefore (malLoweredAt ctx.graph position).insts (fn.arguments params).target
        (malLoweredAt ctx.graph position).insts.length =
      some (malRegsAfter (fn.arguments params) (malLoweredAt ctx.graph position).insts).target ∧
    SupportsAll (malLoweredAt ctx.graph position).insts (fn.arguments params).target := by
  -- Induction on the nodes in front: only operators add an instruction.
  induction position with
  | zero =>
    refine ⟨rfl, fun place now inst inputs value before found => ?_⟩
    cases found
  | succ position next =>
    have earlier := none.mono (Nat.le_succ position)
    have computes' : ∀ ref < position, ∀ node, ctx.graph[ref]? = some node →
        node.kind.isLowered = true → WVMComputes ctx params ref node :=
      fun ref inside => computes ref (by omega)
    obtain ⟨before, supports⟩ := next earlier computes'
    cases found : ctx.graph[position]? with
    | none =>
      rw [malLoweredAt_past found]
      exact ⟨before, supports⟩
    | some node =>
      rw [malLoweredAt_succ found]
      cases WILNodeKind.silent_or_lowered (none position (Nat.lt_succ_self _) node found) with
      | inl silent =>
        rw [(malLowerNode_silent _ silent.1).1]
        exact ⟨before, supports⟩
      | inr lowered =>
        obtain ⟨inputs, value, denotes, denoted, supported⟩ :=
          computes position (Nat.lt_succ_self _) node found lowered.2
        have integer := WILNode.isInteger_lowered (graph.integers.nodes position node found)
          lowered.2
        have plain := WILNodeKind.not_conversion integer.1
        -- All edges of an operator are data, so its operands are its inputs.
        have data : node.inputs.filter (fun slot => slot.edgeKind != .control) = node.inputs := by
          refine List.filter_eq_self.mpr fun slot member => ?_
          have other := graph.data position node found (none position (Nat.lt_succ_self _) node
            found) slot member
          simpa using other
        have targets : ctx.targets position = node.inputs.map (·.node) := targets_of_node found
        have operands : malLowerOperands ctx.graph (malLoweredAt ctx.graph position).nodeRegs node =
            (ctx.targets position).map (malReadOperand ctx.graph position) := by
          rw [malLowerOperands, if_neg plain, data, targets, List.map_map]
          rfl
        -- The operands hold integers, which are the values of the inputs.
        have read : ((ctx.targets position).map (malReadOperand ctx.graph position)).map
            (malOperandInteger (malRegsAfter (fn.arguments params)
              (malLoweredAt ctx.graph position).insts)) =
            inputs.map fun input => some input.integer := by
          rw [List.map_map]
          refine map_eq_of_forall₂ denotes fun pointer member input denotes => ?_
          exact graph.operand_value identified categories count earlier computes'
            (graph.ordered position (inside_of_found identified found).2 pointer member) denotes
        -- The next register is a valid one.
        have valid : (malLoweredAt ctx.graph position).nextSSAReg ≠ malInvalidReg := by
          have fewer := graph.fewer
          have number := (@malNextRegister_eq ctx.graph (by omega) position).2
          rw [nextSSAReg_at position earlier]
          omega
        rw [malLowerNode_lowered _ lowered.2, malLowerValue, insts_setReg, operands]
        rw [← operands] at read ⊢
        -- The operands are as wide as the target.
        have wide : ∀ operand ∈ malLowerOperands ctx.graph
            (malLoweredAt ctx.graph position).nodeRegs node, operand.Wide := by
          rw [operands]
          intro operand member
          obtain ⟨pointer, -, rfl⟩ := List.mem_map.mp member
          exact graph.integers.wide categories _ pointer
        show malRegsBefore ((malLoweredAt ctx.graph position).insts ++ [_]) _
            ((malLoweredAt ctx.graph position).insts ++ [_]).length = some (MALRegisters.target
              (malRegsAfter _ ((malLoweredAt ctx.graph position).insts ++ [_]))) ∧
          SupportsAll ((malLoweredAt ctx.graph position).insts ++ [_]) _
        rw [malRegsAfter_append]
        exact supports.next before (malOpcodeFromWIL_ne_ret integer.1 _) valid wide read denoted
          supported

/-- The function returns what the pointer at its return denotes. -/
theorem returns {reader : Nat} {node : WILNode} {slot : WILInputSlot}
    (found : ctx.graph[reader]? = some node) (ret : node.kind = .returnNode)
    (input : node.inputs[1]? = some slot)
    (computes : ∀ ref < reader, ∀ node, ctx.graph[ref]? = some node →
      node.kind.isLowered = true → WVMComputes ctx params ref node)
    {result : MALValue} (denotes : ctx.Denotes (wilWords params) slot.node (some result.integer)) :
    ReturnsValue (malLowerNodes ctx.graph).insts (fn.arguments params).target result := by
  -- There is one return only.
  have none : NoReturnBefore ctx.graph reader := by
    intro earlier before other present again
    have same := graph.integers.oneReturn earlier reader other node present found again ret
    omega
  have place : slot.node ∈ ctx.targets reader := by
    rw [targets_of_node found]
    exact List.mem_map_of_mem (List.mem_of_getElem? input)
  have value := graph.operand_value identified categories count none computes
    (graph.ordered reader (inside_of_found identified found).2 _ place) denotes
  -- The instructions in front run through, and the return reads its operand.
  have wide := graph.integers.wide categories (malLoweredAt ctx.graph reader).nodeRegs slot.node
  obtain ⟨reached, supports⟩ := graph.reaches identified categories count none computes
  obtain ⟨more, whole⟩ := @malLoweredAt_insts ctx.graph _ _
    (Nat.succ_le_of_lt (inside_of_found identified found).2)
  have round : malLowerNode ctx.graph (malLoweredAt ctx.graph reader) node =
      malLowerReturn ctx.graph (malLoweredAt ctx.graph reader) node := by
    unfold malLowerNode
    rw [ret]
  rw [← malLoweredAt_all, whole, malLoweredAt_succ found, round, malLowerReturn, input]
  rw [malReadOperand] at value
  dsimp only
  generalize malOperandFromWILInput ctx.graph (malLoweredAt ctx.graph reader).nodeRegs slot.node =
    it at value wide
  split
  · -- The value is in a register, which the return reads.
    show ReturnsValue (((malLoweredAt ctx.graph reader).insts ++ [_]) ++ more) _ _
    rw [List.append_assoc, List.singleton_append]
    exact supports.returns reached rfl rfl wide value more
  · -- The value is copied into the next register, and the return reads that.
    obtain ⟨number, valid⟩ := @malNextRegister_eq ctx.graph
      (by have fewer := graph.fewer; omega) reader
    rw [← nextSSAReg_at reader none] at valid
    have dst : (malLoweredAt ctx.graph reader).nextSSAReg ≠ malInvalidReg := Nat.ne_of_lt valid
    let copy : MALInst := ⟨(malLoweredAt ctx.graph reader).insts.length % 2 ^ 32, .copy,
      malTypeFromWIL (wilNodeType (wilNodeAt ctx.graph slot.node)),
      (malLoweredAt ctx.graph reader).nextSSAReg, [it]⟩
    -- The copy reads the value, which its register holds then.
    have read : copy.operands.map (malOperandInteger (malRegsAfter (fn.arguments params)
        (malLoweredAt ctx.graph reader).insts)) = [result].map fun input => some input.integer := by
      rw [List.map_singleton, List.map_singleton, value]
    obtain ⟨copied, supported⟩ := supports.next reached (show MALOpcode.copy ≠ .ret by decide) dst
      (List.forall_mem_singleton.mpr wide) read (malDenote_copy result) trivial
    show ReturnsValue ((((malLoweredAt ctx.graph reader).insts ++ [copy]) ++ [_]) ++ more) _ _
    rw [List.append_assoc _ _ more, List.singleton_append]
    refine supported.returns copied rfl rfl (fun bits immediate => by cases immediate) ?_ more
    show malExecInteger _ copy
      (BitVec.ofNat 32 (malLoweredAt ctx.graph reader).nextSSAReg).toNat = _
    rw [BitVec.toNat_ofNat, Nat.mod_eq_of_lt (by unfold malInvalidReg at valid; omega),
      malExecInteger, MALInst.defines, if_neg dst]
    dsimp only
    rw [read, show copy.dst = (malLoweredAt ctx.graph reader).nextSSAReg from rfl,
      Function.update_self]
    exact malOperator_denote (malDenote_copy result)

end Run

end WVMGraph

end Wirble
