import Wirble.Mal.Lower
import Wirble.Wrs.Assignments

/-! Which registers lowering gives to parameters, and where they agree with the indices. -/

namespace Wirble

open WILContext

section Rounds

variable (src : WILGraph)

/-- Where the loop stands in front of the node at a position. -/
def malLoweredAt (count : Nat) : MALLowering :=
  (src.take count).foldl (malLowerNode src) (malLowerStart src)

/-- The inputs of a node that its instructions read, in operand order. -/
def wilLoweredReads (node : WILNode) : List (Option Nat) :=
  if node.kind.isSilent then []
  else if node.kind = .returnNode then ((node.inputs[1]?).map (·.node)).toList
  else if node.kind = .cast ∨ node.kind = .bitcast then [(node.inputs[0]?).bind (·.node)]
  else (node.inputs.filter fun slot => slot.edgeKind != .control).map (·.node)

/-- The register that a node has once every node is lowered. -/
def malNodeRegister (position : Nat) : Nat := (malLoweredAt src src.length).nodeRegs.getD position 0

/-- The operand that the instructions of a reader hold for one of its inputs. -/
def malReadOperand (reader : Nat) (input : Option Nat) : MALOperand :=
  malOperandFromWILInput src (malLoweredAt src reader).nodeRegs input

end Rounds

section Table

variable {src : WILGraph}

/-- Identifiers count the node array from one. -/
def WILGraph.Identified (src : WILGraph) : Prop :=
  ∀ (ref : Nat) (node : WILNode), src[ref]? = some node → node.id = ref + 1

/-- The loop takes the nodes one after the other. -/
theorem malLoweredAt_succ {position : Nat} {node : WILNode} (found : src[position]? = some node) :
    malLoweredAt src (position + 1) = malLowerNode src (malLoweredAt src position) node := by
  rw [malLoweredAt, List.take_add_one, found, List.foldl_append]
  rfl

/-- Lowering all places is lowering the nodes. -/
theorem malLoweredAt_all : malLoweredAt src src.length = malLowerNodes src := by
  rw [malLoweredAt, List.take_length, malLowerNodes]

/-- The register of a node of the graph is noted at its place. -/
theorem setReg_inside {state : MALLowering} {nodeCount id reg : Nat}
    (inside : id ≠ 0 ∧ id ≤ nodeCount) :
    state.setReg nodeCount id reg = { state with nodeRegs := state.nodeRegs.set (id - 1) reg } :=
  if_pos inside

/-- The register that a round records for its node, if it records one. -/
def malRecorded (state : MALLowering) (node : WILNode) : Option Nat :=
  if node.kind = .param then some state.nextParamReg
  else if node.kind.isSilent ∨ node.kind = .returnNode then none
  else some state.nextSSAReg

/-- A new register is noted for no node. -/
@[simp] theorem nodeRegs_newReg (state : MALLowering) : state.newReg.nodeRegs = state.nodeRegs :=
  rfl

/-- An emitted instruction notes no register. -/
@[simp] theorem nodeRegs_emit (state : MALLowering) (opcode : MALOpcode) (type : MALType)
    (dst : Nat) (operands : List MALOperand) :
    (state.emit opcode type dst operands).nodeRegs = state.nodeRegs := rfl

/-- A new register is no parameter. -/
@[simp] theorem nextParamReg_newReg (state : MALLowering) :
    state.newReg.nextParamReg = state.nextParamReg := rfl

/-- An emitted instruction takes no parameter. -/
@[simp] theorem nextParamReg_emit (state : MALLowering) (opcode : MALOpcode) (type : MALType)
    (dst : Nat) (operands : List MALOperand) :
    (state.emit opcode type dst operands).nextParamReg = state.nextParamReg := rfl

/-- Noting a register takes no parameter. -/
@[simp] theorem nextParamReg_setReg (state : MALLowering) (nodeCount id reg : Nat) :
    (state.setReg nodeCount id reg).nextParamReg = state.nextParamReg := by
  rw [MALLowering.setReg]
  split <;> rfl

/-- Returns record no register. -/
theorem malLowerReturn_tables (state : MALLowering) (node : WILNode) :
    (malLowerReturn src state node).nodeRegs = state.nodeRegs ∧
      (malLowerReturn src state node).nextParamReg = state.nextParamReg := by
  unfold malLowerReturn
  -- A return without a value emits less, but touches no table either.
  cases node.inputs[1]? with
  | none => exact ⟨rfl, rfl⟩
  | some slot =>
    simp only
    split
    · exact ⟨rfl, rfl⟩
    · exact ⟨rfl, rfl⟩

/-- A round writes the table at its own node at most. -/
theorem malLowerNode_nodeRegs {position : Nat} {node : WILNode} (state : MALLowering)
    (identity : node.id = position + 1) (inside : position < src.length) :
    (malLowerNode src state node).nodeRegs =
      match malRecorded state node with
      | some reg => state.nodeRegs.set position reg
      | none => state.nodeRegs := by
  have valid : node.id ≠ 0 ∧ node.id ≤ src.length := by omega
  have place : node.id - 1 = position := by omega
  -- The cases are those of the loop body.
  unfold malLowerNode
  split
  case h_11 kind => simp [malRecorded, kind, valid, setReg_inside valid, place]
  case h_12 kind =>
    simp [malRecorded, kind, WILNodeKind.isSilent, (malLowerReturn_tables state node).1]
  -- An operator takes the next register.
  case h_13 =>
    have recorded : malRecorded state node = some state.nextSSAReg := by
      rw [malRecorded, if_neg (by assumption), if_neg]
      cases kind : node.kind <;> simp_all [WILNodeKind.isSilent]
    rw [recorded, malLowerValue, setReg_inside valid, place]
    rfl
  all_goals
    rename_i kind
    simp [malRecorded, kind, WILNodeKind.isSilent]

/-- Only parameters take parameter registers. -/
theorem malLowerNode_nextParamReg {position : Nat} {node : WILNode} (state : MALLowering)
    (identity : node.id = position + 1) (inside : position < src.length) :
    (malLowerNode src state node).nextParamReg =
      if node.kind = .param then (state.nextParamReg + 1) % 2 ^ 32 else state.nextParamReg := by
  have valid : node.id ≠ 0 ∧ node.id ≤ src.length := by omega
  unfold malLowerNode
  -- The kinds differ in their instructions, and only parameters have the counter in them.
  split
  case h_11 kind => simp [kind, valid]
  case h_12 kind => simp [kind, (malLowerReturn_tables state node).2]
  case h_13 =>
    rw [if_neg (by assumption), malLowerValue]
    simp
  all_goals
    rename_i kind
    simp [kind]

/-- A position past the array takes no further round. -/
theorem malLoweredAt_past {count : Nat} (past : src[count]? = none) :
    malLoweredAt src (count + 1) = malLoweredAt src count := by
  rw [malLoweredAt, List.take_add_one, past]
  simp [malLoweredAt]

section Identified

variable (identified : src.Identified)

include identified

/-- A node of the graph has the number after its place. -/
theorem inside_of_found {position : Nat} {node : WILNode} (found : src[position]? = some node) :
    node.id = position + 1 ∧ position < src.length :=
  ⟨identified position node found, (List.getElem?_eq_some_iff.mp found).1⟩

/-- Every node has a place for its register, at any time. -/
theorem length_nodeRegs (count : Nat) :
    (malLoweredAt src count).nodeRegs.length = src.length := by
  induction count with
  | zero => simp [malLoweredAt, malLowerStart]
  | succ count next =>
    -- A node past the end is not lowered, and one inside sets one place of the table.
    cases found : src[count]? with
    | none => rw [malLoweredAt_past found, next]
    | some node =>
      obtain ⟨identity, inside⟩ := inside_of_found identified found
      rw [malLoweredAt_succ found, malLowerNode_nodeRegs _ identity inside]
      split
      · rw [List.length_set, next]
      · exact next

/-- The loop writes the table at the nodes it has passed. -/
theorem nodeRegs_succ (count position : Nat) (other : position ≠ count) :
    (malLoweredAt src (count + 1)).nodeRegs[position]? =
      (malLoweredAt src count).nodeRegs[position]? := by
  -- The register of another node is written at another place.
  cases found : src[count]? with
  | none => rw [malLoweredAt_past found]
  | some node =>
    obtain ⟨identity, inside⟩ := inside_of_found identified found
    rw [malLoweredAt_succ found, malLowerNode_nodeRegs _ identity inside]
    split
    · rw [List.getElem?_set_ne other.symm]
    · rfl

/-- A node that has not been reached yet is in register zero. -/
theorem nodeRegs_early {count position : Nat} (early : count ≤ position)
    (inside : position < src.length) :
    (malLoweredAt src count).nodeRegs[position]? = some 0 := by
  induction count with
  | zero => simp [malLoweredAt, malLowerStart, inside]
  | succ count next =>
    -- The rounds before the node's own leave its entry alone.
    have passed : position ≠ count := by omega
    rw [nodeRegs_succ identified count position passed]
    exact next (by omega)

/-- The register of a node does not change after its own round. -/
theorem nodeRegs_late {count position : Nat} (late : position < count) :
    (malLoweredAt src count).nodeRegs[position]? =
      (malLoweredAt src (position + 1)).nodeRegs[position]? := by
  -- Induction on the rounds behind the node's own.
  obtain ⟨more, rfl⟩ := Nat.exists_eq_add_of_le late
  induction more with
  | zero => rfl
  | succ more next =>
    have passed : position ≠ position.succ + more := by omega
    rw [← Nat.add_assoc, nodeRegs_succ identified _ position passed]
    exact next (by omega)

/-- The next parameter register counts the parameters passed, with 32 bits. -/
theorem nextParamReg_at (count : Nat) :
    (malLoweredAt src count).nextParamReg = (malFindParams (src.take count)).length % 2 ^ 32 := by
  induction count with
  | zero => simp [malLoweredAt, malLowerStart, malFindParams]
  | succ count next =>
    cases found : src[count]? with
    | none =>
      rw [malLoweredAt_past found, next, List.take_add_one, found]
      simp
    | some node =>
      obtain ⟨identity, inside⟩ := inside_of_found identified found
      rw [malLoweredAt_succ found, malLowerNode_nextParamReg _ identity inside, next,
        List.take_add_one, found]
      simp only [malFindParams, Option.toList_some, List.filter_append, List.length_append]
      -- The register moves on at parameters only.
      by_cases kind : node.kind = .param
      · simp [kind]
      · simp [kind]

/-- A parameter gets its position among the parameter nodes, with 32 bits. -/
theorem malNodeRegister_param {position : Nat} {node : WILNode}
    (found : src[position]? = some node) (kind : node.kind = .param) (count : Nat)
    (late : position < count) :
    (malLoweredAt src count).nodeRegs[position]? =
      some ((malFindParams (src.take position)).length % 2 ^ 32) := by
  obtain ⟨identity, inside⟩ := inside_of_found identified found
  -- A parameter is recorded with the counter as it was before it.
  have recorded : malRecorded (malLoweredAt src position) node =
      some (malLoweredAt src position).nextParamReg := if_pos kind
  rw [nodeRegs_late identified late, malLoweredAt_succ found,
    malLowerNode_nodeRegs _ identity inside, recorded]
  show ((malLoweredAt src position).nodeRegs.set position _)[position]? = _
  rw [List.getElem?_set_self (by rwa [length_nodeRegs identified]), nextParamReg_at identified]

end Identified

end Table

/-! Positions among the parameter nodes. -/

/-- A selected element sits in the selection behind the selected ones in front of it. -/
theorem getElem?_filter_of_getElem? {α : Type} {list : List α} {keep : α → Bool} {position : Nat}
    {value : α} (found : list[position]? = some value) (kept : keep value = true) :
    (list.filter keep)[((list.take position).filter keep).length]? = some value := by
  obtain ⟨inside, rfl⟩ := List.getElem?_eq_some_iff.mp found
  -- The list is what stands in front of the element, the element, and the rest.
  have split : list = list.take position ++ list[position] :: list.drop (position + 1) := by
    rw [← List.drop_eq_getElem_cons inside, List.take_append_drop]
  generalize list[position] = value at split kept
  conv_lhs => rw [split]
  rw [List.filter_append, List.filter_cons_of_pos kept]
  have front : (List.take position (list.take position ++ value :: list.drop (position + 1))) =
      list.take position := by rw [← split]
  rw [front]
  simp

/-- Every selected element comes from a position of the list. -/
theorem exists_getElem?_of_filter {α : Type} {list : List α} {keep : α → Bool} {rank : Nat}
    {value : α} (found : (list.filter keep)[rank]? = some value) :
    ∃ position, list[position]? = some value ∧ keep value = true ∧
      ((list.take position).filter keep).length = rank := by
  -- The induction is on the list, whose head counts for the rank if it is selected.
  induction list generalizing rank with
  | nil => simp at found
  | cons head rest next =>
    by_cases kept : keep head = true
    · rw [List.filter_cons_of_pos kept] at found
      -- The head has rank zero, the selected ones behind it one rank more.
      cases rank with
      | zero =>
        obtain rfl : head = value := by simpa using found
        exact ⟨0, rfl, kept, rfl⟩
      | succ rank =>
        obtain ⟨position, read, chosen, count⟩ := next (by simpa using found)
        refine ⟨position + 1, by simpa using read, chosen, ?_⟩
        rw [List.take_succ_cons, List.filter_cons_of_pos kept, List.length_cons, count]
    · rw [List.filter_cons_of_neg kept] at found
      obtain ⟨position, read, chosen, count⟩ := next found
      refine ⟨position + 1, by simpa using read, chosen, ?_⟩
      rw [List.take_succ_cons, List.filter_cons_of_neg kept, count]

/-- A parameter sits among the parameters behind those in front of it. -/
theorem malFindParams_rank {src : WILGraph} {p : Nat} {a : WILNode} (found : src[p]? = some a)
    (kind : a.kind = .param) :
    (malFindParams src)[(malFindParams (src.take p)).length]? = some a :=
  getElem?_filter_of_getElem? found (by simp [kind])

/-! Parameters that keep their identity. -/

/-- Every parameter is in the register of its index, where the function states its type. -/
structure KeepsParams (src : WILGraph) (fn : MALFunction) : Prop where
  same : ∀ (p q : Nat) (a b : WILNode), src[p]? = some a → a.kind = .param →
    src[q]? = some b → b.kind = .param →
    (malNodeRegister src p = malNodeRegister src q ↔ a.indexValue = b.indexValue)
  own : ∀ (p : Nat) (a : WILNode), src[p]? = some a → a.kind = .param →
    malNodeRegister src p = a.indexValue ∧
      fn.paramTypes[a.indexValue]? = some (malTypeFromWIL a.type)
  read : ∀ (reader p : Nat) (node a : WILNode), src[reader]? = some node →
    some p ∈ wilLoweredReads node → src[p]? = some a → a.kind = .param →
    malReadOperand src reader (some p) = malOperandReg a.indexValue (malTypeFromWIL a.type)

/-- Parameters are created in index order and, after the first, in front of their readers. -/
structure ParamsInOrder (src : WILGraph) : Prop where
  fewer : (malFindParams src).length < 2 ^ 32
  ordered : ∀ (rank : Nat) (a : WILNode), (malFindParams src)[rank]? = some a →
    a.indexValue = rank
  created : ∀ (reader p : Nat) (node a : WILNode), src[reader]? = some node →
    some p ∈ wilLoweredReads node → src[p]? = some a → a.kind = .param →
    a.indexValue ≠ 0 → p < reader

section Kept

variable {src : WILGraph} {fn : MALFunction}

/-- The function states as many types as there are parameters, with 32 bits. -/
theorem paramTypes_getElem? (src : WILGraph) (rank : Nat) :
    (malFindParamCount src).2[rank]? =
      if rank < (malFindParams src).length % 2 ^ 32 then
        ((malFindParams src)[rank]?).map fun a => malTypeFromWIL a.type
      else none := by
  rw [malFindParamCount, List.getElem?_map, List.getElem?_take]
  split <;> rfl

/-- A parameter is no constant, so it is read from the register the table has for it. -/
theorem malReadOperand_param (identified : src.Identified) {reader p : Nat} {a : WILNode}
    (found : src[p]? = some a) (kind : a.kind = .param)
    (category : a.category = wilNodeKindCategory a.kind) {reg : Nat}
    (register : (malLoweredAt src reader).nodeRegs[p]? = some reg) :
    malReadOperand src reader (some p) = malOperandReg reg (malTypeFromWIL a.type) := by
  obtain ⟨identity, inside⟩ := inside_of_found identified found
  -- The category of a parameter is no constant, so its register is looked up.
  have constant : a.isConst = false := by
    rw [WILNode.isConst, category, kind]
    rfl
  have valid : ¬(a.id = 0 ∨ src.length < a.id) := by omega
  have place : a.id - 1 = p := by omega
  rw [malReadOperand, malOperandFromWILInput, show wilNodeAt src (some p) = some a from found]
  simp only [constant, valid, if_false, place, Bool.false_eq_true]
  rw [List.getD_eq_getElem?_getD, register]
  rfl

variable (identified : src.Identified)
  (categories : ∀ (ref : Nat) (record : WILNode), src[ref]? = some record →
    record.category = wilNodeKindCategory record.kind)
  (types : fn.paramTypes = (malFindParamCount src).2)

include identified categories types

/-- Ordered parameters keep their identity. -/
theorem ParamsInOrder.kept (order : ParamsInOrder src) : KeepsParams src fn := by
  -- The rank of a parameter is its index, which is also the register it gets.
  have index : ∀ (p : Nat) (a : WILNode), src[p]? = some a → a.kind = .param →
      a.indexValue = (malFindParams (src.take p)).length ∧
        a.indexValue < (malFindParams src).length := by
    intro p a found kind
    have ranked := malFindParams_rank found kind
    have ordered := order.ordered _ a ranked
    exact ⟨ordered, ordered ▸ (List.getElem?_eq_some_iff.mp ranked).1⟩
  have fewer := order.fewer
  have table : ∀ (p : Nat) (a : WILNode) (count : Nat), src[p]? = some a → a.kind = .param →
      p < count → (malLoweredAt src count).nodeRegs[p]? = some a.indexValue := by
    intro p a count found kind late
    have ranked := index p a found kind
    rw [malNodeRegister_param identified found kind count late, ← ranked.1,
      Nat.mod_eq_of_lt (by omega)]
  -- The final table has the same entry.
  have register : ∀ (p : Nat) (a : WILNode), src[p]? = some a → a.kind = .param →
      malNodeRegister src p = a.indexValue := by
    intro p a found kind
    have inside := (inside_of_found identified found).2
    rw [malNodeRegister, List.getD_eq_getElem?_getD, table p a src.length found kind inside]
    rfl
  -- Two registers agree, types follow the rank, and readers find the register.
  refine ⟨?_, ?_, ?_⟩
  · intro p q a b foundP kindA foundQ kindB
    rw [register p a foundP kindA, register q b foundQ kindB]
  · intro p a found kind
    have ranked := index p a found kind
    refine ⟨register p a found kind, ?_⟩
    rw [types, paramTypes_getElem?, Nat.mod_eq_of_lt fewer, if_pos ranked.2, ranked.1,
      malFindParams_rank found kind]
    rfl
  · intro reader p node a foundReader read found kind
    apply malReadOperand_param identified found kind (categories p a found)
    by_cases late : p < reader
    · exact table p a reader found kind late
    · -- Only the first parameter may be read early, and its register is zero.
      have early : reader ≤ p := by omega
      have zero : a.indexValue = 0 := by
        by_contra later
        exact late (order.created reader p node a foundReader read found kind later)
      rw [zero]
      exact nodeRegs_early identified early (inside_of_found identified found).2

/-- Parameters that keep their identity are ordered. -/
theorem KeepsParams.inOrder (kept : KeepsParams src fn) : ParamsInOrder src := by
  -- The register of a parameter is its rank with 32 bits, and so is then its index.
  have index : ∀ (rank : Nat) (a : WILNode), (malFindParams src)[rank]? = some a →
      a.indexValue = rank % 2 ^ 32 ∧
        rank % 2 ^ 32 < (malFindParams src).length % 2 ^ 32 := by
    intro rank a ranked
    obtain ⟨p, found, kind, count⟩ := exists_getElem?_of_filter ranked
    have isParam : a.kind = .param := by simpa using kind
    have inside := (inside_of_found identified found).2
    obtain ⟨register, stated⟩ := kept.own p a found isParam
    rw [malNodeRegister, List.getD_eq_getElem?_getD,
      malNodeRegister_param identified found isParam src.length inside,
      show (malFindParams (src.take p)).length = rank from count, Option.getD_some] at register
    refine ⟨register.symm, ?_⟩
    -- A register without a stated type would lie beyond the parameters.
    rw [← register, types, paramTypes_getElem?] at stated
    by_contra outside
    rw [if_neg outside] at stated
    cases stated
  have fewer : (malFindParams src).length < 2 ^ 32 := by
    by_contra many
    -- The parameter whose register is the wrapped count has no stated type.
    have wrapped : (malFindParams src).length % 2 ^ 32 < 2 ^ 32 := Nat.mod_lt _ (by decide)
    have inside : (malFindParams src).length % 2 ^ 32 < (malFindParams src).length := by omega
    have bound := (index _ _ (List.getElem?_eq_getElem inside)).2
    rw [Nat.mod_mod] at bound
    exact Nat.lt_irrefl _ bound
  -- The counts are small, so nothing wraps.
  have small : ∀ (rank : Nat) (a : WILNode), (malFindParams src)[rank]? = some a →
      a.indexValue = rank := by
    intro rank a ranked
    have below := (List.getElem?_eq_some_iff.mp ranked).1
    rw [(index rank a ranked).1, Nat.mod_eq_of_lt (by omega)]
  refine ⟨fewer, small, ?_⟩
  -- A reader in front of the parameter would read register zero.
  intro reader p node a foundReader read found kind later
  by_contra early
  have inside := (inside_of_found identified found).2
  have zero := nodeRegs_early identified (Nat.not_lt.mp early) inside
  -- An early reader holds register zero, which is the register of another index.
  have operand := kept.read reader p node a foundReader read found kind
  rw [malReadOperand_param identified found kind (categories p a found) zero] at operand
  have ranked := malFindParams_rank found kind
  have below := (List.getElem?_eq_some_iff.mp ranked).1
  have value := small _ a ranked
  simp only [malOperandReg, MALOperand.mk.injEq, MALOperandPayload.reg.injEq, true_and] at operand
  have bits := congrArg BitVec.toNat operand
  simp only [BitVec.toNat_ofNat] at bits
  omega

end Kept

/--
Lowering keeps the identity of the parameters exactly if they are created in index order.
Each of them but the first has to be created before the nodes that read it, too.
-/
theorem malLowerFromWIL_params_iff (self : Nat) (calls : List WILCall)
    (inside : CallsOnNodes (empty self) calls) (dst : MALModule) :
    let src := (runCalls (empty self) calls).graph
    (∃ fn, (malLowerFromWIL src dst).functions = dst.functions ++ [fn] ∧ KeepsParams src fn) ↔
      ParamsInOrder src := by
  intro src
  have consistent := (defUse_empty self).calls calls inside
  have identified : src.Identified := fun ref node found =>
    (consistent.identified ref node found).1
  have categories := (categories_empty self).calls calls
  constructor
  -- The function is the last one of the module, so it is the one that was lowered.
  · intro lowered
    obtain ⟨fn, appended, kept⟩ := lowered
    have function := List.append_cancel_left appended
    obtain rfl := (List.cons.injEq ..).mp function |>.1
    exact kept.inOrder identified categories rfl
  · intro order
    exact ⟨_, rfl, order.kept identified categories rfl⟩

/-- Two parameters in index order, of which the second one is returned. -/
def orderedParams : List WILCall :=
  [.makeParam 0 .i32 none, .makeParam 1 .f64 none, .makeStart, .makeReturn (some 2) (some 1)]

/-- Parameters in index order keep their identity. -/
theorem malLowerFromWIL_params_ordered :
    ∃ fn, (malLowerFromWIL (runCalls (empty 7) orderedParams).graph
        (malModuleCreate none)).functions = (malModuleCreate none).functions ++ [fn] ∧
      KeepsParams (runCalls (empty 7) orderedParams).graph fn := by
  refine (malLowerFromWIL_params_iff 7 orderedParams (by decide) (malModuleCreate none)).mpr ?_
  have reads : (runCalls (empty 7) orderedParams).graph.map wilLoweredReads =
      [[], [], [], [some 1]] := by decide
  refine ⟨by decide, ?_, ?_⟩
  · intro rank a found
    match rank with
    | 0 | 1 => cases found; rfl
    | rank + 2 => cases found
  · intro reader p node a foundReader read found kind later
    -- Only the return reads anything, and it comes last.
    have listed := congrArg (·[reader]?) reads
    simp only [List.getElem?_map, foundReader, Option.map_some] at listed
    match reader with
    | 0 | 1 | 2 =>
      have silent : wilLoweredReads node = [] := Option.some.inj listed
      simp [silent] at read
    | 3 =>
      have returned : wilLoweredReads node = [some 1] := Option.some.inj listed
      have second : p = 1 := by simpa [returned] using read
      omega
    | reader + 4 => simp at listed

/-- The first parameter that is created has index one, and gets register zero. -/
def swappedParams : List WILCall :=
  [.makeParam 1 .i32 none, .makeParam 0 .f64 none, .makeStart, .makeReturn (some 2) (some 0)]

/-- The parameter of index one is returned from register zero. -/
theorem malLowerFromWIL_params_swapped :
    ¬ ∃ fn, (malLowerFromWIL (runCalls (empty 7) swappedParams).graph
        (malModuleCreate none)).functions = (malModuleCreate none).functions ++ [fn] ∧
      KeepsParams (runCalls (empty 7) swappedParams).graph fn := by
  intro lowered
  obtain ⟨fn, -, kept⟩ := lowered
  -- The parameter would have to be in register one.
  have own := (kept.own 0 _ rfl rfl).1
  revert own
  decide

end Wirble
