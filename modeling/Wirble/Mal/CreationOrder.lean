import Wirble.Mal.Preserves

/-! Graphs whose values lowering preserves, and what creation in data order has to do with it. -/

namespace Wirble

open WILContext IntValue

/-! Registers of graphs with fewer nodes than there are register numbers. -/

section Numbers

variable {src : WILGraph}

/-- Parameters and operators are different nodes. -/
theorem params_add_lowered_le (nodes : List WILNode) :
    (malFindParams nodes).length + nodes.countP (·.kind.isLowered) ≤ nodes.length := by
  -- Induction on the nodes: each of them is counted once at most.
  induction nodes with
  | nil => exact Nat.le_refl 0
  | cons node nodes next =>
    rw [malFindParams] at next ⊢
    rw [List.length_cons, List.countP_cons, List.filter_cons]
    -- A parameter is no operator, and counts on the left.
    by_cases param : node.kind = .param
    · have silent : node.kind.isLowered = false := by
        rw [param]
        rfl
      rw [if_pos (by simp [param]), silent, List.length_cons]
      simp only [Bool.false_eq_true, if_false]
      omega
    · rw [if_neg (by simp [param])]
      split
      · omega
      · omega

variable (fewer : src.length < 2 ^ 32 - 1)

include fewer

/-- Register numbers do not wrap around, and none of them stands for no destination. -/
theorem malNextRegister_eq (position : Nat) :
    malNextRegister src position =
        (malFindParams src).length + (src.take position).countP (·.kind.isLowered) ∧
      malNextRegister src position < malInvalidReg := by
  -- There are at most as many registers as nodes, which are few enough.
  have total := params_add_lowered_le src
  have part : (src.take position).countP (·.kind.isLowered) ≤ src.countP (·.kind.isLowered) :=
    (List.take_sublist position src).countP_le
  rw [malNextRegister, malFindParamCount, malInvalidReg]
  dsimp only
  rw [Nat.mod_eq_of_lt (show (malFindParams src).length < 2 ^ 32 by omega),
    Nat.mod_eq_of_lt (by omega)]
  exact ⟨rfl, by omega⟩

/-- The register of an operator is not that of any later node. -/
theorem malNextRegister_lt {position later : Nat} {node : WILNode}
    (found : src[position]? = some node) (lowered : node.kind.isLowered = true)
    (before : position < later) : malNextRegister src position < malNextRegister src later := by
  -- The operator itself is counted between its own place and the later one.
  have own : (src.take (position + 1)).countP (·.kind.isLowered) =
      (src.take position).countP (·.kind.isLowered) + 1 := by
    rw [List.take_add_one, found, List.countP_append]
    simp [lowered]
  have rest : (src.take (position + 1)).countP (·.kind.isLowered) ≤
      (src.take later).countP (·.kind.isLowered) :=
    (List.take_sublist_take_left before).countP_le
  have first := (malNextRegister_eq fewer position).1
  have second := (malNextRegister_eq fewer later).1
  omega

omit fewer in
/-- A register is held by its last writer. -/
theorem malHeld_node {reg writer position : Nat} (before : writer < position)
    (writes : malWrites src reg writer = true)
    (last : ∀ later, writer < later → later < position → malWrites src reg later = false) :
    malHeld src reg position = .node writer := by
  -- The induction goes from the last node in front of the position back to the writer.
  induction position with
  | zero => omega
  | succ position next =>
    by_cases here : writer = position
    · rw [← here]
      exact malHeld_written writes
    · rw [malHeld_unwritten (last position (by omega) (Nat.lt_succ_self _))]
      exact next (by omega) fun later after inside => last later after (by omega)

/-- The operator at a position keeps its register to itself. -/
theorem malHeld_own {reader position : Nat} {node : WILNode} (found : src[position]? = some node)
    (lowered : node.kind.isLowered = true) (before : position < reader) :
    malHeld src (malNextRegister src position) reader = .node position := by
  have valid := (malNextRegister_eq fewer position).2
  apply malHeld_node before
  · rw [malWrites_some found]
    -- A number that is taken is not the invalid one.
    have other : malNextRegister src position ≠ malInvalidReg := by omega
    simp [lowered, other]
  -- Later operators write larger registers.
  · intro later after _
    have larger := malNextRegister_lt fewer found lowered after
    unfold malWrites
    split
    · rfl
    · have other : malNextRegister src later ≠ malNextRegister src position := by omega
      simp [other]

/-- No operator writes the register of a parameter. -/
theorem malHeld_param {reg : Nat} (param : reg < (malFindParams src).length) (position : Nat) :
    malHeld src reg position = .argument reg := by
  apply malHeld_argument
  intro writer _
  -- Operators write registers behind those of the parameters.
  have number := (malNextRegister_eq fewer writer).1
  unfold malWrites
  split
  · rfl
  · have other : malNextRegister src writer ≠ reg := by omega
    simp [other]

end Numbers

section Sources

variable {src : WILGraph} (fewer : src.length < 2 ^ 32 - 1) (graph : IntegerGraph src)

/-- The input is null, a constant, created in front of its reader, or the first parameter. -/
def ReadInOrder (src : WILGraph) (reader : Nat) (input : Option Nat) : Prop :=
  ∀ position node, input = some position → src[position]? = some node →
    node.isConst = true ∨ position < reader ∨ node.kind = .param ∧ node.indexValue = 0

include fewer

/-- A reader finds an operator that is created in front of it. -/
theorem malSource_lowered {reader position : Nat} {node : WILNode}
    (found : src[position]? = some node) (lowered : node.kind.isLowered = true)
    (variable_ : node.isConst = false) (ordered : ReadInOrder src reader (some position)) :
    malSource src reader (some position) = .node position := by
  -- A reader finds constants, parameters and what is in front of it, and this node is neither of
  -- the first two.
  have other : node.kind ≠ .param := by
    intro param
    rw [param] at lowered
    cases lowered
  -- It is neither constant nor parameter, so it is created in front of its reader.
  have before : position < reader := by
    cases ordered position node rfl found with
    | inl const =>
      rw [variable_] at const
      cases const
    | inr late =>
      cases late with
      | inl before => exact before
      | inr param => exact absurd param.1 other
  rw [malSource, found]
  dsimp only
  rw [if_neg (by simp [variable_]), malFoundRegister, if_pos before, malOwnRegister, found]
  dsimp only
  rw [if_neg other, if_pos lowered]
  exact malHeld_own fewer found lowered before

include graph

/-- A reader finds a parameter as the argument of its index. -/
theorem malSource_param {reader position : Nat} {node : WILNode}
    (found : src[position]? = some node) (param : node.kind = .param)
    (variable_ : node.isConst = false) (ordered : ReadInOrder src reader (some position)) :
    malSource src reader (some position) = .argument node.indexValue ∧
      node.indexValue < (malFindParams src).length := by
  have ranked := malFindParams_rank found param
  have index := graph.ordered _ node ranked
  have inside := (List.getElem?_eq_some_iff.mp ranked).1
  have total := params_add_lowered_le src
  have rank : (malFindParams (src.take position)).length % 2 ^ 32 = node.indexValue := by
    rw [index]
    exact Nat.mod_eq_of_lt (by omega)
  rw [← index] at inside
  refine ⟨?_, inside⟩
  -- A parameter that is created late is the first one, whose register is zero.
  -- The register that is found is the index, also for the first parameter.
  have register : malFoundRegister src reader position = node.indexValue := by
    rw [malFoundRegister, malOwnRegister, found]
    dsimp only
    rw [if_pos param, rank]
    split
    · rfl
    · cases ordered position node rfl found with
      | inl const =>
        rw [variable_] at const
        cases const
      | inr late =>
        cases late with
        | inl before => contradiction
        | inr first => exact first.2.symm
  rw [malSource, found]
  dsimp only
  rw [if_neg (by simp [variable_]), register]
  exact malHeld_param fewer inside reader

end Sources

/-- The nodes that a value depends on are read in the order of their creation. None of them is an
absolute value, which has no opcode of its own, and none has a control input, which is no operand. -/
structure CreatedInOrder (ctx : WILContext) (reader : Nat) (input : Option Nat) : Prop where
  fewer : ctx.graph.length < 2 ^ 32 - 1
  returned : ReadInOrder ctx.graph reader input
  ordered : ∀ ref, Dag.Reach ctx.succ input (some ref) →
    ∀ operand ∈ ctx.targets ref, ReadInOrder ctx.graph ref operand
  supported : ∀ ref node, Dag.Reach ctx.succ input (some ref) → ctx.graph[ref]? = some node →
    node.kind ≠ .abs
  data : ∀ ref node, Dag.Reach ctx.succ input (some ref) → ctx.graph[ref]? = some node →
    ∀ slot ∈ node.inputs, slot.edgeKind ≠ .control

/-- Control nodes have no values. -/
theorem WILNode.isInteger_undefined {node : WILNode} (integer : node.isInteger = true)
    (const : node.kind ≠ .constInt) (param : node.kind ≠ .param)
    (silent : node.kind.isLowered = false) (params : Nat → BitVec 32)
    (inputs : List (Option IntValue)) : (wilWords params).denote node inputs = none := by
  unfold WILNode.isInteger at integer
  unfold WILInterp.denote
  -- Only constants, parameters and operators have values.
  cases kind : node.kind <;> rw [kind] at integer silent const param <;>
    first
      | rfl
      | exact absurd silent (by decide)
      | exact absurd rfl const
      | exact absurd rfl param
      | exact absurd integer (by simp [WILNodeKind.arity])

section Values

variable {ctx : WILContext} {params : Nat → BitVec 32} {value : MALSource → Option IntValue}
  {denoted : Option Nat → Option IntValue}

/-- Operators that a value depends on read all their inputs. -/
theorem CreatedInOrder.wilLoweredReads_eq {reader : Nat} {input : Option Nat}
    (order : CreatedInOrder ctx reader input) {ref : Nat} {node : WILNode}
    (needed : Dag.Reach ctx.succ input (some ref)) (found : ctx.graph[ref]? = some node)
    (lowered : node.kind.isLowered = true) (operator : node.kind.arity.isSome = true) :
    wilLoweredReads node = ctx.targets ref := by
  -- None of the inputs is control, so all of them are read.
  have data : ∀ slot ∈ node.inputs, (slot.edgeKind != .control) = true := by
    intro slot member
    simpa using order.data ref node needed found slot member
  rw [wilLoweredReads_lowered lowered operator, List.filter_eq_self.mpr data,
    targets_of_node found]
  rfl

/-- In a graph created in order, sources have the values of the nodes that they stand for. -/
theorem CreatedInOrder.value_eq {reader : Nat} {input : Option Nat}
    (order : CreatedInOrder ctx reader input) (graph : IntegerGraph ctx.graph)
    (categories : ctx.Categories) (acyclic : ctx.Acyclic)
    (valuation : Dag.IsValuation (malSourceLabel ctx.graph params) (malSourceSucc ctx.graph) value)
    (denotes : ctx.IsValuation (wilWords params) denoted) {pointer : Option Nat}
    (needed : Dag.Reach ctx.succ input pointer) {result : IntValue}
    (defined : denoted pointer = some result) :
    ∀ user, ReadInOrder ctx.graph user pointer →
      value (malSource ctx.graph user pointer) = some result := by
  -- Induction along the edges of the graph, which has no cycle.
  induction pointer using acyclic.grounded.induction generalizing result with
  | _ pointer next =>
    intro user ordered
    have own := denotes pointer
    rw [defined] at own
    cases pointer with
    | none => cases own
    | some ref =>
      unfold WILContext.label at own
      cases found : ctx.graph[ref]? with
      | none =>
        simp only [found] at own
        cases own
      | some node =>
        simp only [found, Option.elim_some] at own
        have integer := graph.nodes ref node found
        have constants := WILNode.isInteger_const integer (categories ref node found)
        -- Constants have their value, parameters their argument.
        cases const : node.isConst with
        | true =>
          have source : malSource ctx.graph user (some ref) = .node ref := by
            rw [malSource, found]
            exact if_pos const
          have kind := constants.mp const
          rw [source, valuation, malSourceLabel, found, Option.elim_some, kind]
          unfold WILInterp.denote at own ⊢
          rw [kind] at own ⊢
          exact own.symm
        | false =>
          by_cases param : node.kind = .param
          · obtain ⟨source, inside⟩ :=
              malSource_param order.fewer graph found param const ordered
            have small : (malFindParams ctx.graph).length < 2 ^ 32 := by
              have total := params_add_lowered_le ctx.graph
              have fewer := order.fewer
              omega
            rw [source, valuation, malSourceLabel, malFindParamCount]
            dsimp only
            rw [Nat.mod_eq_of_lt small, if_pos inside]
            unfold WILInterp.denote at own
            rw [param] at own
            exact own.symm
          -- Any other node is an operator, or it would have no value.
          · have other : node.kind ≠ .constInt := by
              intro kind
              rw [constants.mpr kind] at const
              cases const
            cases lowered : node.kind.isLowered with
            | false =>
              rw [WILNode.isInteger_undefined integer other param lowered] at own
              cases own
            | true =>
              obtain ⟨operator, -⟩ := WILNode.isInteger_lowered integer lowered
              rw [malSource_lowered order.fewer found lowered const ordered, valuation,
                malSourceLabel, malSourceSucc, found, Option.elim_some, Option.elim_some,
                if_neg (order.supported ref node needed found),
                (wilWords params).denote_operator operator,
                order.wilLoweredReads_eq needed found lowered operator]
              rw [(wilWords params).denote_operator operator] at own
              have present : (wilOperator node.kind
                  ((ctx.succ (some ref)).map denoted)).isSome = true := by
                rw [← show some result = wilOperator node.kind _ from own]
                rfl
              -- Its operands have values, which are those of their sources.
              have defined := wilOperator_operands present
              have same : ((ctx.targets ref).map (malSource ctx.graph ref)).map value =
                  (ctx.targets ref).map denoted := by
                rw [List.map_map]
                apply List.map_congr_left
                intro operand edge
                obtain ⟨word, known⟩ :=
                  Option.isSome_iff_exists.mp (defined _ (List.mem_map_of_mem edge))
                rw [known]
                exact next operand edge (needed.tail edge) known ref
                  (order.ordered ref needed operand edge)
              rw [same]
              exact own.symm

end Values

/-- In an ordered graph a node depends on nodes in front of it and on itself. -/
theorem WILContext.Ordered.reach_le {ctx : WILContext} (ordered : ctx.Ordered) {position ref : Nat}
    (path : Dag.Reach ctx.succ (some position) (some ref)) : ref ≤ position := by
  have falls : ∀ pointer, Dag.Reach ctx.succ (some position) pointer →
      ∀ ref, pointer = some ref → ref ≤ position := by
    intro pointer path
    -- Induction on the path, whose last edge leads to an earlier node.
    induction path with
    | refl =>
      intro ref same
      cases same
      exact Nat.le_refl _
    | @tail middle last _ edge next =>
      intro ref same
      subst same
      cases middle with
      | none => exact absurd edge List.not_mem_nil
      | some middle =>
        -- The edge leads to a node in front of its user.
        have step := ordered middle (inside_of_target edge) (some ref) edge
        have before := next middle rfl
        simp only [Option.all_some, decide_eq_true_eq] at step
        omega
  exact falls (some ref) path ref rfl

/-- Without edits that point forwards, everything is created in the order of its use. -/
theorem WILContext.Ordered.createdInOrder {ctx : WILContext} (ordered : ctx.Ordered)
    (fewer : ctx.graph.length < 2 ^ 32 - 1) {reader position : Nat} (before : position < reader)
    (checked : ∀ ref ≤ position, ∀ node, ctx.graph[ref]? = some node →
      node.kind ≠ .abs ∧ ∀ slot ∈ node.inputs, slot.edgeKind ≠ .control) :
    CreatedInOrder ctx reader (some position) := by
  refine ⟨fewer, ?_, ?_, ?_, ?_⟩
  -- The reader comes after what it reads.
  · intro other node same _
    cases same
    exact .inr (.inl before)
  -- Every edge leads to an earlier node.
  · intro ref _ operand edge other node same _
    have step := ordered ref (inside_of_target edge) operand edge
    rw [same] at step
    simp only [Option.all_some, decide_eq_true_eq] at step
    exact .inr (.inl step)
  · intro ref node needed found
    exact (checked ref (ordered.reach_le needed) node found).1
  · intro ref node needed found
    exact (checked ref (ordered.reach_le needed) node found).2

/-- A graph of integers is recognized by looking at its nodes. -/
theorem integerGraph_of_checks {src : WILGraph} (last : Nat)
    (integers : ∀ node ∈ src, node.isInteger = true)
    (ordered : (malFindParams src).map (·.indexValue) = List.range (malFindParams src).length)
    (returns : ∀ place < src.length, (src[place]?).map (·.kind) = some .returnNode →
      place = last) : IntegerGraph src := by
  -- The return is looked for among finitely many nodes.
  have only : ∀ place node, src[place]? = some node → node.kind = .returnNode →
      place = last := by
    intro place node found ret
    apply returns place (List.getElem?_eq_some_iff.mp found).1
    rw [found, Option.map_some, ret]
  refine ⟨fun ref node found => integers node (List.mem_of_getElem? found), ?_, ?_⟩
  · intro rank node ranked
    have inside := (List.getElem?_eq_some_iff.mp ranked).1
    have listed := congrArg (·[rank]?) ordered
    simp only [List.getElem?_map, ranked, Option.map_some, List.getElem?_range inside] at listed
    exact Option.some.inj listed
  · intro p q a b foundP foundQ retP retQ
    rw [only p a foundP retP, only q b foundQ retQ]

/-! What a return returns. -/

/-- A property of every return with a value that the graph denotes, for all arguments. -/
def ReturnsAll (ctx : WILContext)
    (holds : Nat → Option Nat → (Nat → BitVec 32) → IntValue → Prop) : Prop :=
  ∀ (reader : Nat) (node : WILNode) (slot : WILInputSlot),
    ctx.graph[reader]? = some node → node.kind = .returnNode → node.inputs[1]? = some slot →
    ∀ params result, ctx.Denotes (wilWords params) slot.node (some result) →
      holds reader slot.node params result

/-- Executing the function returns what the graph denotes at the value input of its return. -/
def PreservesValues (ctx : WILContext) (fn : MALFunction) : Prop :=
  ReturnsAll ctx fun _ _ params result =>
    malReturned (fn.arguments params) fn.insts = some result

/-- The graph that the registers describe denotes at the return what the graph itself denotes. -/
def RegistersDescribe (ctx : WILContext) : Prop :=
  ReturnsAll ctx fun reader input params result =>
    MALSourceDenotes ctx.graph params (malReturnSource ctx.graph reader input) (some result)

section Return

variable {ctx : WILContext} (graph : IntegerGraph ctx.graph)
  (identified : ctx.graph.Identified) (categories : ctx.Categories)

include graph categories

/-- In a graph of integers no operand leads back to itself. -/
theorem malSource_grounded_of_integer : Dag.Grounded (malSourceSucc ctx.graph) := by
  apply malSource_grounded
  intro ref node found const
  have integer := graph.nodes ref node found
  rw [(WILNode.isInteger_const integer (categories ref node found)).mp const]
  rfl

include identified

/-- A lowered function returns a value exactly if the registers describe it. -/
theorem malReturned_eq_iff {fn : MALFunction}
    (count : fn.paramCount = (malFindParamCount ctx.graph).1)
    (insts : fn.insts = (malLowerNodes ctx.graph).insts) {reader : Nat} {node : WILNode}
    {slot : WILInputSlot} (found : ctx.graph[reader]? = some node)
    (ret : node.kind = .returnNode) (input : node.inputs[1]? = some slot)
    (params : Nat → BitVec 32) (result : Option IntValue) :
    malReturned (fn.arguments params) fn.insts = result ↔
      MALSourceDenotes ctx.graph params (malReturnSource ctx.graph reader slot.node) result := by
  have grounded := malSource_grounded_of_integer graph categories
  obtain ⟨value, valuation⟩ := grounded.exists_valuation (malSourceLabel ctx.graph params)
  rw [malReturned_source graph identified categories valuation count insts found ret input]
  constructor
  · intro same
    -- What the function returns is the value of the register graph.
    rw [← same]
    exact grounded.denotes valuation _
  · intro denotes
    -- A value that is denoted is the one of the valuation.
    obtain ⟨fuel, evaluated⟩ := denotes
    exact Dag.eval_eq_valuation valuation evaluated

omit identified in
/-- What is created in the order of its use is described by the registers. -/
theorem CreatedInOrder.denotes {reader : Nat} {input : Option Nat}
    (order : CreatedInOrder ctx reader input) (acyclic : ctx.Acyclic) {params : Nat → BitVec 32}
    {result : IntValue} (denotes : ctx.Denotes (wilWords params) input (some result)) :
    MALSourceDenotes ctx.graph params (malReturnSource ctx.graph reader input) (some result) := by
  -- Both sides have one valuation, and along the order the two agree.
  have grounded := malSource_grounded_of_integer graph categories
  obtain ⟨value, valuation⟩ := grounded.exists_valuation (malSourceLabel ctx.graph params)
  obtain ⟨denoted, (assigned : ctx.IsValuation (wilWords params) denoted)⟩ :=
    acyclic.grounded.exists_valuation (ctx.label (wilWords params))
  have known : denoted input = some result := by
    obtain ⟨fuel, evaluated⟩ := denotes
    exact Dag.eval_eq_valuation assigned evaluated
  -- What is returned has the value of its source, which is no lost copy.
  have same := order.value_eq graph categories acyclic valuation assigned .refl known reader
    order.returned
  have source : malReturnSource ctx.graph reader input = malSource ctx.graph reader input := by
    have valid := (malNextRegister_eq order.fewer reader).2
    unfold malReturnSource
    split
    · rfl
    · exact if_neg (by omega)
  rw [source, ← same]
  exact grounded.denotes valuation _

end Return

/--
Lowering preserves values exactly if the registers describe them at the return.
They do where everything that the returned value depends on is created in the order of its use.
-/
theorem malLowerFromWIL_values_iff (self : Nat) (calls : List WILCall)
    (inside : CallsOnNodes (empty self) calls)
    (graph : IntegerGraph (runCalls (empty self) calls).graph)
    (acyclic : (runCalls (empty self) calls).Acyclic) (dst : MALModule) :
    let ctx := runCalls (empty self) calls
    ∃ fn, (malLowerFromWIL ctx.graph dst).functions = dst.functions ++ [fn] ∧
      (PreservesValues ctx fn ↔ RegistersDescribe ctx) ∧
      (ReturnsAll ctx (fun reader input _ _ => CreatedInOrder ctx reader input) →
        PreservesValues ctx fn) := by
  -- What a return hands back is the value of its source, so both statements speak of that.
  intro ctx
  have consistent := (defUse_empty self).calls calls inside
  have identified : ctx.graph.Identified := fun ref node found =>
    (consistent.identified ref node found).1
  have categories := (categories_empty self).calls calls
  refine ⟨_, rfl, ?_, ?_⟩
  · constructor
    -- Preserving means that the source has the value, and the other way round.
    · intro preserves reader node slot found ret input params result denotes
      have returned := preserves reader node slot found ret input params result denotes
      exact (malReturned_eq_iff graph identified categories rfl (List.append_nil _) found ret input
        params _).mp returned
    · intro describe reader node slot found ret input params result denotes
      have described := describe reader node slot found ret input params result denotes
      exact (malReturned_eq_iff graph identified categories rfl (List.append_nil _) found ret input
        params _).mpr described
  -- An order of creation describes the values, so they are preserved.
  · intro order reader node slot found ret input params result denotes
    have described := (order reader node slot found ret input params result denotes).denotes graph
      categories acyclic denotes
    exact (malReturned_eq_iff graph identified categories rfl (List.append_nil _) found ret input
      params _).mpr described

/-- The sum of a parameter with itself is replaced by its double, which is created before the
return. -/
def earlyDouble : List WILCall :=
  [.makeParam 0 .i32 none, .makeBinary .add (some 0) (some 0), .makeConstInt 2 .i32,
    .makeBinary .mul (some 0) (some 2), .makeStart, .makeReturn (some 4) (some 1),
    .replaceAllUses (some 1) (some 3)]

/-- The double is what the lowered function returns. -/
theorem malLowerFromWIL_values_double :
    ∃ fn, (malLowerFromWIL (runCalls (empty 7) earlyDouble).graph (malModuleCreate none)).functions =
        (malModuleCreate none).functions ++ [fn] ∧
      PreservesValues (runCalls (empty 7) earlyDouble) fn := by
  have ordered : (runCalls (empty 7) earlyDouble).Ordered := by decide
  have graph : IntegerGraph (runCalls (empty 7) earlyDouble).graph :=
    integerGraph_of_checks 5 (by decide) (by decide) (by decide)
  obtain ⟨fn, lowered, -, preserves⟩ := malLowerFromWIL_values_iff 7 earlyDouble (by decide) graph
    ordered.acyclic (malModuleCreate none)
  refine ⟨fn, lowered, preserves ?_⟩
  intro reader node slot found ret input params result _
  -- The return is the last of six nodes, and the product in front of it is in order.
  have last : reader = 5 := by
    have kinds : ∀ place < 6, ((runCalls (empty 7) earlyDouble).graph[place]?).map (·.kind) =
        some .returnNode → place = 5 := by decide
    apply kinds reader (List.getElem?_eq_some_iff.mp found).1
    rw [found, Option.map_some, ret]
  subst last
  cases found
  cases input
  -- Nothing in front of the return is an absolute value, and no slot is a control edge.
  exact ordered.createdInOrder (by decide) (show 3 < 5 by decide) fun ref before node found => by
    have plain : ∀ node ∈ (runCalls (empty 7) earlyDouble).graph.take 4,
        node.kind ≠ .abs ∧ ∀ slot ∈ node.inputs, slot.edgeKind ≠ .control := by decide
    apply plain node
    refine List.mem_of_getElem? (show _[ref]? = some node from ?_)
    rw [List.getElem?_take_of_lt (by omega)]
    exact found

/-- The sum of a parameter with itself is replaced by its double, which is created last. -/
def rewrittenSum : List WILCall :=
  [.makeParam 0 .i32 none, .makeBinary .add (some 0) (some 0), .makeStart,
    .makeReturn (some 2) (some 1), .makeConstInt 2 .i32, .makeBinary .mul (some 0) (some 4),
    .replaceAllUses (some 1) (some 5)]

/-- The graph of the calls has no cycle. -/
theorem rewrittenSum_acyclic : (runCalls (empty 7) rewrittenSum).Acyclic := by
  -- The return comes before the product in the array, and after it in this order.
  let place : List Nat := [1, 3, 1, 4, 1, 2]
  refine Dag.acyclic_of_rank (fun pointer => pointer.elim 0 (place.getD · 0)) ?_
  intro pointer target edge
  cases pointer with
  | none => exact absurd edge List.not_mem_nil
  | some user =>
    have inside : user < 6 := inside_of_target edge
    have all : ∀ user < 6, ∀ target ∈ (runCalls (empty 7) rewrittenSum).targets user,
        target.elim 0 (place.getD · 0) < place.getD user 0 := by decide
    exact all user inside target edge

/-- The return reads the register of the parameter instead of the product. -/
theorem malLowerFromWIL_values_not_preserved :
    ¬ ∀ (self : Nat) (calls : List WILCall), CallsOnNodes (empty self) calls →
      IntegerGraph (runCalls (empty self) calls).graph → (runCalls (empty self) calls).Acyclic →
      ∀ dst : MALModule, ∃ fn,
        (malLowerFromWIL (runCalls (empty self) calls).graph dst).functions =
          dst.functions ++ [fn] ∧
        PreservesValues (runCalls (empty self) calls) fn := by
  intro claimed
  -- The edited graph is one of integers, without a cycle.
  have graph : IntegerGraph (runCalls (empty 7) rewrittenSum).graph :=
    integerGraph_of_checks 3 (by decide) (by decide) (by decide)
  obtain ⟨fn, lowered, preserves⟩ := claimed 7 rewrittenSum (by decide) graph rewrittenSum_acyclic
    (malModuleCreate none)
  obtain rfl := (List.cons.injEq ..).mp lowered |>.1
  -- With three for the parameter the product is six, and the function returns three.
  have returned := preserves 3 _ _ rfl rfl rfl (fun _ => 3) ⟨32, 6⟩ ⟨3, rfl⟩
  revert returned
  decide

end Wirble
