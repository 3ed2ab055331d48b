import Wirble.Wil.Frame
import Wirble.Wil.Validate

/-! Use lists count the slots that refer to a node, over every sequence of graph calls. -/

namespace Wirble

open WILContext

/-- Every use list records its users as often as their slots refer to the node. -/
structure DefUse (ctx : WILContext) : Prop where
  counted : ∀ node user : Nat,
    (ctx.usesOf node).count user = (ctx.targets user).count (some node)
  identified : ∀ (ref : Nat) (node : WILNode), ctx.graph[ref]? = some node →
    node.id = ref + 1 ∧ node.context = ctx.self

/-- An empty context has no uses and no nodes. -/
theorem defUse_empty (self : Nat) : DefUse (empty self) := by
  constructor
  · intro node user
    simp [empty, usesOf, WILContext.targets, slots]
  · intro ref node found
    simp [empty] at found

/-- Ids and owners survive every edit that keeps the nodes. -/
theorem SameNodes.identified {before after : WILContext} (same : SameNodes before after)
    (identified : ∀ (ref : Nat) (node : WILNode), before.graph[ref]? = some node →
      node.id = ref + 1 ∧ node.context = before.self)
    (ref : Nat) (node : WILNode) (found : after.graph[ref]? = some node) :
    node.id = ref + 1 ∧ node.context = after.self := by
  -- The record at the same position of the earlier graph has the same id and owner.
  have kept := same.core ref
  rw [found] at kept
  cases stored : before.graph[ref]? with
  | none => simp [stored] at kept
  | some earlier =>
    rw [stored] at kept
    have fields : node.core = earlier.core := by simpa using kept
    have id : node.core.id = earlier.core.id := congrArg WILNode.id fields
    have owner : node.core.context = earlier.core.context := congrArg WILNode.context fields
    simp only [WILNode.core] at id owner
    have known := identified ref earlier stored
    rw [id, owner, same.self]
    exact known

/-- Removing one element lowers the count of that element alone. -/
theorem count_eraseIdx_add {α : Type} [BEq α] (list : List α) (index : Nat)
    (inside : index < list.length) (value : α) :
    (list.eraseIdx index).count value + (if list[index] == value then 1 else 0) =
      list.count value := by
  induction list generalizing index with
  | nil => simp at inside
  | cons head tail next =>
    cases index with
    | zero => simp [List.count_cons]
    | succ index =>
      -- Behind the head the removed element is one of the tail.
      have tailInside : index < tail.length := by simpa using inside
      have tailCount := next index tailInside
      simp only [List.eraseIdx_cons_succ, List.count_cons, List.getElem_cons_succ]
      omega

section Edits

variable {ctx : WILContext} {node : Nat}

/-- The slot read by an edit is an element of the target list. -/
theorem inputAt_of_valid {index : Nat} (valid : index < (ctx.targets node).length) :
    ctx.inputAt node index = (ctx.targets node)[index] := by
  simp [inputAt_eq, List.getElem?_eq_getElem valid]

/-- Appending a slot registers exactly its own use. -/
theorem DefUse.addInput (consistent : DefUse ctx) {input : Option Nat}
    (inside : node < ctx.graph.length)
    (inputInside : ∀ target, input = some target → target < ctx.graph.length)
    (edgeKind : WILEdgeKind) : DefUse (wilNodeAddInput ctx node input edgeKind) := by
  refine ⟨fun other user => ?_, (sameNodes_addInput ctx node input edgeKind).identified
    consistent.identified⟩
  have before := consistent.counted other user
  rw [usesOf_addInput, targets_addInput]
  -- The use list and the slots grow together, by one occurrence of the same pair.
  by_cases target : input = some other
  · have otherInside := inputInside other target
    by_cases same : node = user
    · subst same
      simp [target, otherInside, inside, before]
    · simp [target, otherInside, same, before]
  · by_cases same : node = user
    · subst same
      have distinct : ¬ some other = input := fun equal => target equal.symm
      simp [target, inside, before]
    · simp [target, same, before]

/-- Redirecting a slot moves one use from its old target to its new one. -/
theorem DefUse.replaceInput (consistent : DefUse ctx) {newInput : Option Nat}
    (inputInside : ∀ target, newInput = some target → target < ctx.graph.length)
    (index : Nat) : DefUse (wilNodeReplaceInput ctx node index newInput) := by
  by_cases valid : index < ctx.inputCount node
  · refine ⟨fun other user => ?_, (sameNodes_replaceInput ctx node index newInput).identified
      consistent.identified⟩
    have before := consistent.counted other user
    have slotInside : index < (ctx.targets node).length := by rwa [← inputCount_eq]
    rw [usesOf_replaceInput _ _ _ _ _ valid, targets_replaceInput, inputAt_of_valid slotInside]
    have target : newInput = some other ∧ other < ctx.graph.length ↔ newInput = some other :=
      ⟨fun both => both.1, fun equal => ⟨equal, inputInside other equal⟩⟩
    simp only [target]
    by_cases same : node = user
    · -- The slots of the user change exactly as its entry in the two use lists.
      subst same
      have present : (ctx.targets node)[index] = some other →
          0 < (ctx.targets node).count (some other) := fun read =>
        List.count_pos_iff.mpr (read ▸ List.getElem_mem slotInside)
      simp only [if_true, List.count_set slotInside]
      split <;> split <;> simp_all
    · -- Another user keeps both its slots and its entries.
      have kept : ∀ list : List Nat,
          (list.erase node).count user = list.count user := fun list =>
        List.count_erase_of_ne (fun equal => same equal.symm)
      simp only [same, if_false]
      split <;> split <;> simp_all
  · simpa [wilNodeReplaceInput, valid] using consistent

/-- Deleting a slot forgets exactly its own use. -/
theorem DefUse.removeInput (consistent : DefUse ctx) (index : Nat) :
    DefUse (wilNodeRemoveInput ctx node index) := by
  by_cases valid : index < ctx.inputCount node
  · refine ⟨fun other user => ?_, (sameNodes_removeInput ctx node index).identified
      consistent.identified⟩
    have before := consistent.counted other user
    have slotInside : index < (ctx.targets node).length := by rwa [← inputCount_eq]
    rw [usesOf_removeInput _ _ _ _ valid, targets_removeInput, inputAt_of_valid slotInside]
    by_cases same : node = user
    · -- The user loses one slot and one entry.
      subst same
      have erased := count_eraseIdx_add (ctx.targets node) index slotInside (some other)
      simp only [if_true]
      by_cases read : (ctx.targets node)[index] = some other
      · simp only [read, beq_self_eq_true, if_true, List.count_erase_self] at erased ⊢
        omega
      · simp only [read, beq_eq_false_iff_ne.mpr read, if_false] at erased ⊢
        exact before.trans erased.symm
    · -- Another user keeps both its slots and its entries.
      have kept : ((ctx.usesOf other).erase node).count user = (ctx.usesOf other).count user :=
        List.count_erase_of_ne (fun equal => same equal.symm)
      simp only [same, if_false]
      split <;> simp_all
  · simpa [wilNodeRemoveInput, valid] using consistent

end Edits

/-! Loops of edits. -/

/-- Redirecting the slots of one user creates no nodes. -/
theorem sameNodes_replaceUsesIn (oldNode newNode user : Nat) (index remaining : Nat)
    (ctx : WILContext) : SameNodes ctx (replaceUsesIn oldNode newNode user index remaining ctx) := by
  induction remaining generalizing index ctx with
  | zero => exact .refl ctx
  | succ remaining next =>
    -- One slot is redirected or left alone, and the loop goes on behind it.
    refine .trans ?_ (next (index + 1) _)
    split
    · exact sameNodes_replaceInput ctx user index (some newNode)
    · exact .refl ctx

/-- Redirecting the slots of all users creates no nodes. -/
theorem sameNodes_replaceUsesOf (oldNode newNode : Nat) (users : List Nat)
    (ctx : WILContext) : SameNodes ctx (replaceUsesOf oldNode newNode users ctx) := by
  induction users generalizing ctx with
  | nil => exact .refl ctx
  | cons user rest next => exact .trans (sameNodes_replaceUsesIn _ _ _ _ _ ctx) (next _)

/-- Replacing all uses of a node creates no nodes. -/
theorem sameNodes_replaceAllUses (ctx : WILContext) (oldNode newNode : Option Nat) :
    SameNodes ctx (wilNodeReplaceAllUses ctx oldNode newNode) := by
  unfold wilNodeReplaceAllUses
  -- A null pointer on either side, or a node with itself, stops the call at once.
  split
  · split
    · exact .refl ctx
    · exact sameNodes_replaceUsesOf _ _ _ ctx
  · exact .refl ctx

/-- Removing inputs creates no nodes. -/
theorem sameNodes_removeInputs (node : Nat) (count : Nat) (ctx : WILContext) :
    SameNodes ctx (removeInputs node count ctx) := by
  induction count generalizing ctx with
  | zero => exact .refl ctx
  | succ count next => exact .trans (sameNodes_removeInput ctx node count) (next _)

/-- Removing a node creates no nodes: it stays in the array. -/
theorem sameNodes_remove (ctx : WILContext) (node : Nat) :
    SameNodes ctx (wilNodeRemove ctx node) := by
  unfold wilNodeRemove
  split
  -- The node loses its inputs, and then only its flag is set.
  · refine .trans (sameNodes_removeInputs node (ctx.inputCount node) ctx)
      (sameNodes_modifyNode _ node ?_)
    intro stored
    rfl
  · exact .refl ctx

/-- Use lists stay exact while the slots of one user are redirected. -/
theorem DefUse.replaceUsesIn {oldNode newNode user : Nat} (index remaining : Nat)
    {ctx : WILContext} (consistent : DefUse ctx) (inside : newNode < ctx.graph.length) :
    DefUse (replaceUsesIn oldNode newNode user index remaining ctx) := by
  -- Each slot of the user is redirected at most once, and a redirect keeps the counts.
  induction remaining generalizing index ctx with
  | zero => exact consistent
  | succ remaining next =>
    have redirected : DefUse (wilNodeReplaceInput ctx user index (some newNode)) :=
      consistent.replaceInput (by simpa using inside) index
    have length := (sameNodes_replaceInput ctx user index (some newNode)).length
    simp only [Wirble.replaceUsesIn]
    split
    · exact next (index + 1) redirected (by omega)
    · exact next (index + 1) consistent inside

/-- Use lists stay exact while the slots of all users are redirected. -/
theorem DefUse.replaceUsesOf {oldNode newNode : Nat} (users : List Nat)
    {ctx : WILContext} (consistent : DefUse ctx) (inside : newNode < ctx.graph.length) :
    DefUse (replaceUsesOf oldNode newNode users ctx) := by
  -- The snapshot may name a user several times, or one whose slots have changed since.
  induction users generalizing ctx with
  | nil => exact consistent
  | cons user rest next =>
    have length := (sameNodes_replaceUsesIn oldNode newNode user 0 (ctx.inputCount user) ctx).length
    exact next (consistent.replaceUsesIn 0 _ inside) (by omega)

/-- Redirecting every use keeps the use lists consistent, whatever the two nodes are. -/
theorem DefUse.replaceAllUses {ctx : WILContext} (consistent : DefUse ctx)
    (oldNode newNode : Option Nat)
    (inside : ∀ target, newNode = some target → target < ctx.graph.length) :
    DefUse (wilNodeReplaceAllUses ctx oldNode newNode) := by
  unfold wilNodeReplaceAllUses
  split
  · rename_i oldNode newNode
    -- Nothing happens between a node and itself; otherwise the recorded users are visited.
    split
    · exact consistent
    · exact consistent.replaceUsesOf _ (inside newNode rfl)
  · exact consistent

/-- Use lists stay exact while inputs are removed. -/
theorem DefUse.removeInputs {node : Nat} (count : Nat) {ctx : WILContext}
    (consistent : DefUse ctx) : DefUse (removeInputs node count ctx) := by
  induction count generalizing ctx with
  | zero => exact consistent
  | succ count next => exact next (consistent.removeInput count)

/-- Removing a node deletes its slots together with their uses. -/
theorem DefUse.remove {ctx : WILContext} (consistent : DefUse ctx) (node : Nat) :
    DefUse (wilNodeRemove ctx node) := by
  refine ⟨fun other user => ?_, (sameNodes_remove ctx node).identified consistent.identified⟩
  unfold wilNodeRemove
  split
  · -- The flag is invisible to slots and use lists.
    have emptied : DefUse (Wirble.removeInputs node (ctx.inputCount node) ctx) :=
      consistent.removeInputs (ctx.inputCount node)
    rw [usesOf_modifyNode_of_uses, targets_modifyNode_of_inputs]
    · exact emptied.counted other user
    · intro stored
      rfl
    · intro stored
      rfl
  · exact consistent.counted other user

/-! Node creation. -/

/-- A fresh node sits past the old ones and has neither slots nor uses. -/
theorem graph_create_get (ctx : WILContext) (kind : WILNodeKind) (type : WILType)
    (name : Option String) (payload : WILNodePayload) (ref : Nat) :
    (wilNodeCreate ctx kind type name payload).1.graph[ref]? =
      if ref = ctx.graph.length then
        some { context := ctx.self, id := ctx.graph.length + 1, kind, type, name, payload,
               category := wilNodeKindCategory kind, inputs := [], uses := [], removed := false }
      else ctx.graph[ref]? := by
  simp only [wilNodeCreate, List.getElem?_append]
  -- Below the old length the array is unchanged, at it sits the new node, above it nothing.
  rcases Nat.lt_trichotomy ref ctx.graph.length with below | equal | above
  · simp [below, Nat.ne_of_lt below]
  · simp [equal]
  · have past : ref - ctx.graph.length ≠ 0 := by omega
    simp [Nat.not_lt.mpr (Nat.le_of_lt above), Nat.ne_of_gt above, past]

/-- A new node has no inputs, and the others keep theirs. -/
theorem targets_create (ctx : WILContext) (kind : WILNodeKind) (type : WILType)
    (name : Option String) (payload : WILNodePayload) :
    (wilNodeCreate ctx kind type name payload).1.targets = ctx.targets := by
  funext ref
  -- Only the fresh record is new, and its list of slots is empty.
  simp only [targets_eq, graph_create_get]
  by_cases fresh : ref = ctx.graph.length
  · simp [fresh, WILNode.targets]
  · simp [fresh]

/-- A new node has no users, and the others keep theirs. -/
theorem usesOf_create (ctx : WILContext) (kind : WILNodeKind) (type : WILType)
    (name : Option String) (payload : WILNodePayload) :
    (wilNodeCreate ctx kind type name payload).1.usesOf = ctx.usesOf := by
  funext ref
  -- Only the fresh record is new, and its list of users is empty.
  simp only [usesOf, graph_create_get]
  by_cases fresh : ref = ctx.graph.length
  · simp [fresh]
  · simp [fresh]

/-- Creating appends one node. -/
@[simp] theorem length_create (ctx : WILContext) (kind : WILNodeKind) (type : WILType)
    (name : Option String) (payload : WILNodePayload) :
    (wilNodeCreate ctx kind type name payload).1.graph.length = ctx.graph.length + 1 := by
  simp [wilNodeCreate]

/-- Creation gives the fresh node the next id and changes nothing else. -/
theorem DefUse.create {ctx : WILContext} (consistent : DefUse ctx) (kind : WILNodeKind)
    (type : WILType) (name : Option String) (payload : WILNodePayload) :
    DefUse (wilNodeCreate ctx kind type name payload).1 := by
  constructor
  -- The use lists and the slots are those of before.
  · intro node user
    rw [usesOf_create, targets_create]
    exact consistent.counted node user
  · intro ref node found
    -- The fresh node has the next id, and old nodes keep theirs.
    rw [graph_create_get] at found
    split at found
    · rename_i fresh
      cases found
      exact ⟨by rw [fresh], rfl⟩
    · exact consistent.identified ref node found

/-- Adding inputs creates no nodes. -/
theorem sameNodes_addInputs (node : Nat) (inputs : List (Option Nat × WILEdgeKind))
    (ctx : WILContext) : SameNodes ctx (addInputs node inputs ctx) := by
  induction inputs generalizing ctx with
  | nil => exact .refl ctx
  | cons input rest next => exact .trans (sameNodes_addInput ctx node input.1 input.2) (next _)

/-- Use lists stay exact while inputs are added that are nodes of the graph. -/
theorem DefUse.addInputs {node : Nat} (inputs : List (Option Nat × WILEdgeKind))
    {ctx : WILContext} (consistent : DefUse ctx) (inside : node < ctx.graph.length)
    (inputsInside : ∀ target, some target ∈ inputs.map (·.1) → target < ctx.graph.length) :
    DefUse (addInputs node inputs ctx) := by
  induction inputs generalizing ctx with
  | nil => exact consistent
  | cons input rest next =>
    obtain ⟨target, edgeKind⟩ := input
    -- The graph keeps its length, so the remaining inputs are still nodes of it.
    have length := (sameNodes_addInput ctx node target edgeKind).length
    refine next (consistent.addInput inside ?_ edgeKind) (by omega) ?_
    · intro ref equal
      exact inputsInside ref (by simp [equal])
    · intro ref member
      have bound := inputsInside ref (List.mem_cons_of_mem _ member)
      omega

/-- A builder applied to nodes of the context keeps the use lists consistent. -/
theorem DefUse.build {ctx : WILContext} (consistent : DefUse ctx) {kind : WILNodeKind}
    {type : WILType} {name : Option String} {payload : WILNodePayload}
    {inputs : List (Option Nat × WILEdgeKind)}
    (inside : ∀ target, some target ∈ inputs.map (·.1) → target < ctx.graph.length) :
    DefUse (wilBuild ctx kind type name payload inputs).1 := by
  -- The fresh node is the last of the array, and so a node that inputs can be added to.
  have created := consistent.create kind type name payload
  refine created.addInputs inputs ?_ ?_
  · rw [length_create]
    exact Nat.lt_succ_self _
  · intro target member
    have bound := inside target member
    rw [length_create]
    omega

/-! Sequences of public calls. -/

/-- The public calls that build or edit a graph. -/
inductive WILCall where
  | makeConstInt (value : Int) (type : WILType)
  | makeConstFloat (value : DoubleBits) (type : WILType)
  | makeConstBool (value : Bool)
  | makeUndef (type : WILType)
  | makeParam (index : Nat) (type : WILType) (name : Option String)
  | makeBinary (kind : WILNodeKind) (lhs rhs : Option Nat)
  | makeUnary (kind : WILNodeKind) (operand : Option Nat)
  | makeLoad (address effect : Option Nat) (type : WILType)
  | makeStore (address value effect : Option Nat)
  | makeAlloca (type : WILType) (size : Option Nat)
  | makeStart
  | makeReturn (control value : Option Nat)
  | makeJump (control target : Option Nat)
  | makeRegion (controls : List (Option Nat))
  | makeIf (control condition : Option Nat)
  | makeLoop (entryControl : Option Nat)
  | makeProj (control : Option Nat) (index : Nat)
  | makePhi (region : Option Nat) (values : List (Option Nat))
  | makeCall (control effect : Option Nat) (callee : Option String) (args : List (Option Nat))
  | makeCallIndirect (control effect callee : Option Nat) (args : List (Option Nat))
  | makeCast (value : Option Nat) (targetType : WILType)
  | makeBitcast (value : Option Nat) (targetType : WILType)
  | makeExtract (aggregate : Option Nat) (index : Nat)
  | makeInsert (aggregate value : Option Nat) (index : Nat)
  | makeSelect (condition trueVal falseVal : Option Nat)
  | addInput (node : Nat) (input : Option Nat) (edgeKind : WILEdgeKind)
  | replaceInput (node index : Nat) (newInput : Option Nat)
  | removeInput (node index : Nat)
  | replaceAllUses (oldNode newNode : Option Nat)
  | remove (node : Nat)
  deriving DecidableEq, Repr

namespace WILCall

/-- Perform one call, dropping the pointer that a builder returns. -/
def run (ctx : WILContext) : WILCall → WILContext
  | makeConstInt value type => (wilMakeConstInt ctx value type).1
  | makeConstFloat value type => (wilMakeConstFloat ctx value type).1
  | makeConstBool value => (wilMakeConstBool ctx value).1
  | makeUndef type => (wilMakeUndef ctx type).1
  | makeParam index type name => (wilMakeParam ctx index type name).1
  | makeBinary kind lhs rhs => (wilMakeBinary ctx kind lhs rhs).1
  | makeUnary kind operand => (wilMakeUnary ctx kind operand).1
  | makeLoad address effect type => (wilMakeLoad ctx address effect type).1
  | makeStore address value effect => (wilMakeStore ctx address value effect).1
  | makeAlloca type size => (wilMakeAlloca ctx type size).1
  | makeStart => (wilMakeStart ctx).1
  | makeReturn control value => (wilMakeReturn ctx control value).1
  | makeJump control target => (wilMakeJump ctx control target).1
  | makeRegion controls => (wilMakeRegion ctx controls).1
  | makeIf control condition => (wilMakeIf ctx control condition).1
  | makeLoop entryControl => (wilMakeLoop ctx entryControl).1
  | makeProj control index => (wilMakeProj ctx control index).1
  | makePhi region values => (wilMakePhi ctx region values).1
  | makeCall control effect callee args => (wilMakeCall ctx control effect callee args).1
  | makeCallIndirect control effect callee args =>
    (wilMakeCallIndirect ctx control effect callee args).1
  | makeCast value targetType => (wilMakeCast ctx value targetType).1
  | makeBitcast value targetType => (wilMakeBitcast ctx value targetType).1
  | makeExtract aggregate index => (wilMakeExtract ctx aggregate index).1
  | makeInsert aggregate value index => (wilMakeInsert ctx aggregate value index).1
  | makeSelect condition trueVal falseVal => (wilMakeSelect ctx condition trueVal falseVal).1
  | addInput node input edgeKind => wilNodeAddInput ctx node input edgeKind
  | replaceInput node index newInput => wilNodeReplaceInput ctx node index newInput
  | removeInput node index => wilNodeRemoveInput ctx node index
  | replaceAllUses oldNode newNode => wilNodeReplaceAllUses ctx oldNode newNode
  | remove node => wilNodeRemove ctx node

/-- The node pointers passed to a call. -/
def pointers : WILCall → List (Option Nat)
  | makeConstInt _ _ | makeConstFloat _ _ | makeConstBool _ | makeUndef _ | makeParam _ _ _
  | makeStart => []
  | makeBinary _ lhs rhs => [lhs, rhs]
  | makeUnary _ operand => [operand]
  | makeLoad address effect _ => [address, effect]
  | makeStore address value effect => [address, value, effect]
  | makeAlloca _ size => [size]
  | makeReturn control value => [control, value]
  | makeJump control target => [control, target]
  | makeRegion controls => controls
  | makeIf control condition => [control, condition]
  | makeLoop entryControl => [entryControl]
  | makeProj control _ => [control]
  | makePhi region values => region :: values
  | makeCall control effect _ args => control :: effect :: args
  | makeCallIndirect control effect callee args => control :: effect :: callee :: args
  | makeCast value _ | makeBitcast value _ => [value]
  | makeExtract aggregate _ => [aggregate]
  | makeInsert aggregate value _ => [aggregate, value]
  | makeSelect condition trueVal falseVal => [condition, trueVal, falseVal]
  | addInput node input _ => [some node, input]
  | replaceInput node _ newInput => [some node, newInput]
  | removeInput node _ => [some node]
  | replaceAllUses oldNode newNode => [oldNode, newNode]
  | remove node => [some node]

/-- Every pointer passed is null or a node of the context. -/
def OnNodes (ctx : WILContext) (call : WILCall) : Prop :=
  ∀ ref : Nat, some ref ∈ call.pointers → ref < ctx.graph.length

instance (ctx : WILContext) (call : WILCall) : Decidable (call.OnNodes ctx) :=
  -- Only the finitely many pointers passed have to be compared with the array.
  decidable_of_iff (∀ pointer ∈ call.pointers, ∀ ref ∈ pointer, ref < ctx.graph.length)
    ⟨fun bounded ref member => bounded (some ref) member ref rfl,
      fun bounded _ member ref equal => bounded ref (equal ▸ member)⟩

end WILCall

/-- Perform calls one after the other. -/
def runCalls : WILContext → List WILCall → WILContext
  | ctx, [] => ctx
  | ctx, call :: rest => runCalls (call.run ctx) rest

/-- Each call is made on nodes that exist when its turn comes. -/
def CallsOnNodes : WILContext → List WILCall → Prop
  | _, [] => True
  | ctx, call :: rest => call.OnNodes ctx ∧ CallsOnNodes (call.run ctx) rest

instance decidableCallsOnNodes : (ctx : WILContext) → (calls : List WILCall) →
    Decidable (CallsOnNodes ctx calls)
  | _, [] => isTrue trivial
  | ctx, call :: rest =>
    have := decidableCallsOnNodes (call.run ctx) rest
    inferInstanceAs (Decidable (call.OnNodes ctx ∧ CallsOnNodes (call.run ctx) rest))

/-- One call on nodes of the context keeps the use lists consistent. -/
theorem DefUse.call {ctx : WILContext} (consistent : DefUse ctx) (call : WILCall)
    (inside : call.OnNodes ctx) : DefUse (call.run ctx) := by
  cases call with
  | makeConstInt | makeConstFloat | makeConstBool | makeUndef | makeParam | makeStart =>
    exact consistent.create _ _ _ _
  | makeAlloca type size =>
    -- A null size leaves the node without slots.
    refine consistent.build ?_
    intro target member
    cases size with
    | none => simp at member
    | some size => exact inside target member
  | makeRegion | makePhi | makeCall | makeCallIndirect =>
    -- The pointers of the list are those that have to be nodes.
    refine consistent.build ?_
    intro target member
    exact inside target (by simpa [WILCall.pointers, Function.comp_def] using member)
  | addInput node input edgeKind =>
    -- Only the pointer that is stored has to be a node.
    refine consistent.addInput (inside node (by simp [WILCall.pointers])) ?_ edgeKind
    intro target equal
    exact inside target (by simp [WILCall.pointers, equal])
  | replaceInput node index newInput =>
    refine consistent.replaceInput ?_ index
    intro target equal
    exact inside target (by simp [WILCall.pointers, equal])
  | removeInput node index => exact consistent.removeInput index
  | replaceAllUses oldNode newNode =>
    refine consistent.replaceAllUses oldNode newNode ?_
    intro target equal
    exact inside target (by simp [WILCall.pointers, equal])
  | remove node => exact consistent.remove node
  | _ => exact consistent.build inside

/-- Every sequence of calls on nodes of the context keeps the use lists consistent. -/
theorem DefUse.calls {ctx : WILContext} (consistent : DefUse ctx) (calls : List WILCall)
    (inside : CallsOnNodes ctx calls) : DefUse (runCalls ctx calls) := by
  induction calls generalizing ctx with
  | nil => exact consistent
  | cons call rest next => exact next (consistent.call call inside.1) inside.2

/-! The verifier accepts consistent graphs. -/

/-- No slot of the graph is null. -/
def NoNullInput (ctx : WILContext) : Prop := ∀ user : Nat, none ∉ ctx.targets user

/-- The verifier accepts inputs that are not null and know the node as a user. -/
theorem verifyInputs_none {ctx : WILContext} {ref : Nat} {node : WILNode} (index : Nat)
    (slots : List WILInputSlot)
    (registered : ∀ slot ∈ slots, ∃ input, slot.node = some input ∧ ref ∈ ctx.usesOf input) :
    verifyInputs ctx ref node index slots = none := by
  induction slots generalizing index with
  | nil => rfl
  | cons slot rest next =>
    -- The slot holds a node that knows its user, so neither of the two errors is raised.
    obtain ⟨input, read, used⟩ := registered slot (by simp)
    have tail := next (index + 1) fun slot member => registered slot (by simp [member])
    simp only [verifyInputs, read, used, if_true]
    exact tail

/-- The verifier accepts users that have the node among their inputs. -/
theorem verifyUses_none {ctx : WILContext} {ref : Nat} {node : WILNode} (users : List Nat)
    (matched : ∀ user ∈ users, some ref ∈ ctx.targets user) :
    verifyUses ctx ref node users = none := by
  induction users with
  | nil => rfl
  | cons user rest next =>
    -- The first user has this node among its targets, so it is no stray entry.
    have tail := next fun user member => matched user (by simp [member])
    simp only [verifyUses, matched user (by simp), if_true]
    exact tail

/-- The verifier accepts nodes that it accepts one by one. -/
theorem verifyNodes_none {ctx : WILContext} (index : Nat) (nodes : List WILNode)
    (accepted : ∀ offset node, nodes[offset]? = some node →
      wilVerifyNode ctx (index + offset) node = none) :
    verifyNodes ctx index nodes = none := by
  induction nodes generalizing index with
  | nil => rfl
  | cons node rest next =>
    -- The first node is accepted at this index, and the others at the indices behind it.
    have head := accepted 0 node rfl
    have tail := next (index + 1) fun offset node found => by
      have later := accepted (offset + 1) node found
      rwa [show index + 1 + offset = index + (offset + 1) by omega]
    simp only [verifyNodes, Nat.add_zero] at head ⊢
    rw [head, tail]
    rfl

/-- A consistent graph without null slots passes verification. -/
theorem DefUse.verified {ctx : WILContext} (consistent : DefUse ctx)
    (nonNull : NoNullInput ctx) : (wilVerifyGraph ctx).2 = true := by
  have accepted : verifyNodes ctx 0 ctx.graph = none := by
    refine verifyNodes_none 0 ctx.graph ?_
    intro ref node found
    have identity := consistent.identified ref node found
    -- A slot's target counts the user at least once, and so its use list does.
    have inputs : verifyInputs ctx ref node 0 node.inputs = none := by
      refine verifyInputs_none 0 node.inputs ?_
      intro slot member
      have listed : slot.node ∈ ctx.targets ref := by
        rw [targets_of_node found]
        exact List.mem_map_of_mem member
      cases read : slot.node with
      | none => exact absurd (read ▸ listed) (nonNull ref)
      | some input =>
        -- The node is among the targets, so it is counted among the users.
        have counted := consistent.counted input ref
        have positive : 0 < (ctx.targets ref).count (some input) :=
          List.count_pos_iff.mpr (read ▸ listed)
        exact ⟨input, rfl, List.count_pos_iff.mp (by omega)⟩
    have uses : verifyUses ctx ref node node.uses = none := by
      refine verifyUses_none node.uses ?_
      intro user member
      -- A user is counted among the targets in turn.
      have counted := consistent.counted ref user
      have positive : 0 < (ctx.usesOf ref).count user := by
        rw [usesOf_of_node found]
        exact List.count_pos_iff.mpr member
      exact List.count_pos_iff.mp (by omega)
    simp [wilVerifyNode, identity, inputs, uses]
  simp [wilVerifyGraph, accepted]

/-- Ids are the positions of the array counted from one. -/
theorem DefUse.ids {ctx : WILContext} (consistent : DefUse ctx) :
    ctx.graph.map (·.id) = List.range' 1 ctx.graph.length := by
  -- Ids and positions are compared element by element.
  apply List.ext_getElem
  · simp
  · intro index inside _
    have found : index < ctx.graph.length := by simpa using inside
    have identity := consistent.identified index ctx.graph[index] (List.getElem?_eq_getElem found)
    simp [identity.1, Nat.add_comm]

/-- After any calls on nodes of a fresh context, use lists count slots, ids follow the array,
and verification succeeds as soon as no slot is null. -/
theorem runCalls_def_use (self : Nat) (calls : List WILCall)
    (inside : CallsOnNodes (empty self) calls) :
    let ctx := runCalls (empty self) calls
    (∀ node user : Nat,
      (ctx.usesOf node).count user = (ctx.slots user).countP (·.node = some node)) ∧
    ctx.graph.map (·.id) = List.range' 1 ctx.graph.length ∧
    (NoNullInput ctx → (wilVerifyGraph ctx).2 = true) := by
  have consistent := (defUse_empty self).calls calls inside
  refine ⟨fun node user => ?_, consistent.ids, consistent.verified⟩
  -- A use list counts the targets, which are the nodes in the slots.
  rw [consistent.counted]
  simp only [WILContext.targets, List.count, List.countP_map]
  exact List.countP_congr fun slot _ => by simp

/-- A node that uses itself twice, redirected and then detached. -/
theorem runCalls_def_use_self_loop :
    let ctx := runCalls (empty 7) [.makeConstInt 1 .i32, .makeBinary .add (some 0) (some 0),
      .addInput 1 (some 1) .data, .replaceAllUses (some 0) (some 1), .removeInput 1 1, .remove 0]
    (∀ node user : Nat,
      (ctx.usesOf node).count user = (ctx.slots user).countP (·.node = some node)) ∧
    ctx.graph.map (·.id) = List.range' 1 ctx.graph.length ∧
    (NoNullInput ctx → (wilVerifyGraph ctx).2 = true) :=
  runCalls_def_use 7 _ (by decide)

end Wirble
