import Wirble.Wrs.EquinoxTerms
import Wirble.Wil.Integers
import Wirble.Wil.Rewire

/-! When nodes that the e-graph calls equivalent have equal values. -/

namespace Wirble

open Term WILContext IntValue

/-- The number of bits of a value, where types that are no integer types take a machine word. -/
def wilTypeWidth : WILType → Nat
  | .i1 => 1
  | .i8 => 8
  | .i16 => 16
  | .i32 => 32
  | _ => 64

/-- The kinds that compute a value from their operands, their type and their index. -/
def WILNodeKind.converts : WILNodeKind → Bool
  | .cast | .bitcast | .extract | .insert => true
  | _ => false

/-- Values of everything that has no integer meaning of its own. -/
structure OpaqueAssignment where
  param : Nat → Option IntValue
  float : WILType → DoubleBits → Option IntValue
  convert : WILNodeKind → WILType → Nat → List (Option IntValue) → Option IntValue
  /-- Memory and control nodes, and undefined values, by their ids. -/
  leaf : Nat → Option IntValue

/-- Integer graphs over the given values of parameters and opaque nodes. -/
def wilOpaque (assign : OpaqueAssignment) : WILInterp (Option IntValue) where
  null := none
  constInt type value := some ⟨wilTypeWidth type, BitVec.ofInt _ value⟩
  constFloat := assign.float
  constBool value := some (truth value)
  param := assign.param
  operator := wilOperator
  other node inputs :=
    if node.kind.converts then assign.convert node.kind node.type node.indexValue inputs
    else assign.leaf node.id

/-- What tells the meaning of a node apart from that of others of its kind. -/
inductive WILLabel where
  | int (value : IntValue)
  | float (type : WILType) (value : DoubleBits)
  | bool (value : Bool)
  | param (index : Nat)
  | operator (kind : WILNodeKind)
  | convert (kind : WILNodeKind) (type : WILType) (index : Nat)
  | leaf (id : Nat)
  deriving DecidableEq

/-- The label of a node. -/
def wilLabel (node : WILNode) : WILLabel :=
  match node.kind with
  | .constInt => .int ⟨wilTypeWidth node.type, BitVec.ofInt _ node.constInt⟩
  | .constFloat => .float node.type node.constFloat
  | .constBool => .bool node.constBool
  | .param => .param node.indexValue
  | kind =>
    if kind.arity.isSome then .operator kind
    else if kind.converts then .convert kind node.type node.indexValue
    else .leaf node.id

/-- The label of an operator is its kind. -/
theorem wilLabel_operator {node : WILNode} (operator : node.kind.arity.isSome = true) :
    wilLabel node = .operator node.kind := by
  unfold wilLabel
  cases kind : node.kind <;> simp_all [WILNodeKind.arity]

/-- The value of a label over the values of the inputs. -/
def WILLabel.value (assign : OpaqueAssignment) (inputs : List (Option IntValue)) :
    WILLabel → Option IntValue
  | int value => some value
  | float type value => assign.float type value
  | bool value => some (truth value)
  | param index => assign.param index
  | operator kind => wilOperator kind inputs
  | convert kind type index => assign.convert kind type index inputs
  | leaf id => assign.leaf id

/-- A node means what its label says. -/
theorem denote_eq_label (assign : OpaqueAssignment) (node : WILNode)
    (inputs : List (Option IntValue)) :
    (wilOpaque assign).denote node inputs = (wilLabel node).value assign inputs := by
  -- The two definitions split by kind in the same way.
  have core : node.core.kind = node.kind ∧ node.core.type = node.type ∧
      node.core.indexValue = node.indexValue ∧ node.core.id = node.id := ⟨rfl, rfl, rfl, rfl⟩
  unfold WILInterp.denote wilLabel
  cases kind : node.kind <;>
    simp only [core, kind, wilOpaque, WILNodeKind.arity, WILNodeKind.converts, Option.isSome,
      WILLabel.value] <;>
    rfl

/-- An assignment under which the label has a value that no other label of its sort has. -/
def WILLabel.distinguish (label : WILLabel) : OpaqueAssignment where
  param index := some (truth (.param index = label))
  float type value := some (truth (.float type value = label))
  convert kind type index _ := some (truth (.convert kind type index = label))
  leaf id := some (truth (.leaf id = label))

/-- Truth values are told apart as integers. -/
theorem truth_injective : Function.Injective truth := by
  intro left right same
  cases left <;> cases right <;> simp_all [truth]

/-- Nodes of one kind that never differ in value have one label. -/
theorem wilLabel_eq_of_value {left right : WILNode} (kinds : left.kind = right.kind)
    (same : ∀ assign : OpaqueAssignment, ∃ inputs inputs',
      (wilLabel left).value assign inputs = (wilLabel right).value assign inputs') :
    wilLabel left = wilLabel right := by
  obtain ⟨inputs, inputs', equal⟩ := same (wilLabel right).distinguish
  revert equal
  unfold wilLabel
  -- Only the label of the right node has the value it has under this assignment.
  cases kind : right.kind <;>
    simp [kinds, kind, WILNodeKind.arity, WILNodeKind.converts, WILLabel.value,
      WILLabel.distinguish, truth_injective.eq_iff]

/-! Laws of the operators that have e-graph rules. -/

/-- An operation that commutes on words commutes where it has no value as well. -/
theorem binary_comm {op : (width : Nat) → BitVec width → BitVec width → BitVec width}
    (comm : ∀ width x y, op width x y = op width y x) (x y : Option IntValue) :
    binary op x y = binary op y x := by
  rcases x with _ | ⟨width, x⟩ <;> rcases y with _ | ⟨width', y⟩ <;> try rfl
  by_cases equal : width' = width
  · subst equal
    simp [comm width' x y]
  · -- Operands of different widths have no value in either order.
    simp [binary, sameWidth, equal, Ne.symm equal]

/-- An operation that associates on words associates where it has no value as well. -/
theorem binary_assoc {op : (width : Nat) → BitVec width → BitVec width → BitVec width}
    (assoc : ∀ width x y z, op width x (op width y z) = op width (op width x y) z)
    (x y z : Option IntValue) :
    binary op x (binary op y z) = binary op (binary op x y) z := by
  -- Without a value on one side there is none on the other; values of one width associate.
  rcases x with _ | ⟨width, x⟩ <;> rcases y with _ | ⟨width', y⟩ <;>
    rcases z with _ | ⟨width'', z⟩ <;> try simp [binary, sameWidth]
  by_cases first : width' = width
  · subst first
    by_cases second : width'' = width'
    · subst second
      simp [assoc width'' x y z]
    · simp [second]
  · by_cases second : width'' = width'
    · subst second
      simp [first]
    · simp [first, second]

/-- The operators with rules commute. -/
theorem wilOperator_comm {kind : WILNodeKind} (rewritable : wrsIsEqxRewritableKind kind = true)
    (x y : Option IntValue) : wilOperator kind [x, y] = wilOperator kind [y, x] := by
  -- The kinds with rules are five, and each of them commutes on words.
  cases kind <;> simp only [wrsIsEqxRewritableKind, Bool.false_eq_true] at rewritable
  · exact binary_comm (fun _ => BitVec.add_comm) x y
  · exact binary_comm (fun _ => BitVec.mul_comm) x y
  · exact binary_comm (fun _ => BitVec.and_comm) x y
  · exact binary_comm (fun _ => BitVec.or_comm) x y
  · exact binary_comm (fun _ => BitVec.xor_comm) x y

/-- The operators with rules associate. -/
theorem wilOperator_assoc {kind : WILNodeKind} (rewritable : wrsIsEqxRewritableKind kind = true)
    (x y z : Option IntValue) :
    wilOperator kind [x, wilOperator kind [y, z]] =
      wilOperator kind [wilOperator kind [x, y], z] := by
  -- The kinds with rules are five, and each of them associates on words.
  cases kind <;> simp only [wrsIsEqxRewritableKind, Bool.false_eq_true] at rewritable
  · exact binary_assoc (fun _ x y z => (BitVec.add_assoc x y z).symm) x y z
  · exact binary_assoc (fun _ x y z => (BitVec.mul_assoc x y z).symm) x y z
  · exact binary_assoc (fun _ x y z => (BitVec.and_assoc x y z).symm) x y z
  · exact binary_assoc (fun _ x y z => (BitVec.or_assoc x y z).symm) x y z
  · exact binary_assoc (fun _ x y z => (BitVec.xor_assoc x y z).symm) x y z

/-! Values of terms, read off the nodes of a graph. -/

/-- Terms equal by congruence and by the equations of the registered rules. -/
abbrev AcConv : Term Nat → Term Nat → Prop := Conv (EqxEquation wrsSaturateRules)

/-- The kind of an operator id. -/
def kindOfOp (op : Nat) : WILNodeKind := WILNodeKind.ofNat (op - 1)

/-- The identifier of a kind leads back to the kind. -/
@[simp] theorem kindOfOp_wrsOpOfKind (kind : WILNodeKind) : kindOfOp (wrsOpOfKind kind) = kind :=
  WILNodeKind.ofNat_ctorIdx kind

section Graph

variable (ctx : WILContext)

/-- Some node of the graph with this label has a term convertible to the given one. -/
def Labelled (term : Term Nat) (label : WILLabel) : Prop :=
  ∃ ref node other, ctx.graph[ref]? = some node ∧ HasTerm ctx (some ref) other ∧
    AcConv other term ∧ wilLabel node = label

/-- Nodes with related terms have one label. -/
def LabelsAgree (related : Term Nat → Term Nat → Prop) : Prop :=
  ∀ left right leftNode rightNode leftTerm rightTerm,
    ctx.graph[left]? = some leftNode → ctx.graph[right]? = some rightNode →
    HasTerm ctx (some left) leftTerm → HasTerm ctx (some right) rightTerm →
    related leftTerm rightTerm → wilLabel leftNode = wilLabel rightNode

open Classical in
/-- The label of some node with a convertible term. -/
noncomputable def labelOf (term : Term Nat) : Option WILLabel :=
  if found : ∃ label, Labelled ctx term label then some found.choose else none

/-- The value of a term, where operators act on any terms and labels come from the graph. -/
noncomputable def termValue (assign : OpaqueAssignment) : Term Nat → Option IntValue
  | app op args =>
    if (kindOfOp op).arity.isSome then wilOperator (kindOfOp op) (args.map (termValue assign))
    else (labelOf ctx (app op args)).bind (·.value assign (args.map (termValue assign)))

variable {ctx}

/-- Convertible terms are labelled by the same nodes. -/
theorem labelOf_conv {left right : Term Nat} (conv : AcConv left right) :
    labelOf ctx left = labelOf ctx right := by
  -- The same nodes are candidates for both terms.
  have same : Labelled ctx left = Labelled ctx right := by
    funext label
    refine propext ⟨?_, ?_⟩
    · rintro ⟨ref, node, other, found, has, related, labelled⟩
      exact ⟨ref, node, other, found, has, related.trans conv, labelled⟩
    · rintro ⟨ref, node, other, found, has, related, labelled⟩
      exact ⟨ref, node, other, found, has, related.trans conv.symm, labelled⟩
  rw [labelOf, labelOf, same]

/-- Where labels agree, the term of a node carries the node's own label. -/
theorem LabelsAgree.labelOf_eq (agree : LabelsAgree ctx AcConv) {ref : Nat} {node : WILNode}
    {term : Term Nat} (found : ctx.graph[ref]? = some node) (has : HasTerm ctx (some ref) term) :
    labelOf ctx term = some (wilLabel node) := by
  -- The node itself is a candidate, so one is chosen, and its label agrees.
  have labelled : ∃ label, Labelled ctx term label :=
    ⟨wilLabel node, ref, node, term, found, has, .refl term, rfl⟩
  rw [labelOf, dif_pos labelled]
  obtain ⟨ref', node', other, found', has', related, chosen⟩ := labelled.choose_spec
  rw [← chosen, agree ref' ref node' node other term found' found has' has related]

variable (ctx) in
/-- The value of a term of two arguments is that of the operator on their values. -/
theorem termValue_binary (assign : OpaqueAssignment) {kind : WILNodeKind}
    (operator : kind.arity.isSome = true) (x y : Term Nat) :
    termValue ctx assign (app (wrsOpOfKind kind) [x, y]) =
      wilOperator kind [termValue ctx assign x, termValue ctx assign y] := by
  rw [termValue, kindOfOp_wrsOpOfKind, if_pos operator]
  rfl

/-- Both sides of a registered rule have one value. -/
theorem termValue_equation (assign : OpaqueAssignment) {left right : Term Nat}
    (equation : EqxEquation wrsSaturateRules left right) :
    termValue ctx assign left = termValue ctx assign right := by
  -- The equation is a commutation, or an association read in one of the two directions.
  obtain ⟨kind, rewritable, x, y, z, ⟨rfl, rfl⟩ | ⟨rfl, rfl⟩ | ⟨rfl, rfl⟩⟩ := equation.cases
  all_goals
    have operator : kind.arity.isSome = true := by
      cases kind <;> simp_all [wrsIsEqxRewritableKind, WILNodeKind.arity]
    simp only [termValue_binary ctx assign operator]
  · exact wilOperator_comm rewritable _ _
  · exact wilOperator_assoc rewritable _ _ _
  · exact (wilOperator_assoc rewritable _ _ _).symm

/-- Convertible terms have one value. -/
theorem termValue_conv (assign : OpaqueAssignment) {left right : Term Nat}
    (conv : AcConv left right) : termValue ctx assign left = termValue ctx assign right := by
  refine Conv.map_eq (fun left right equation => termValue_equation assign equation) ?_ conv
  intro op before after left right related same
  -- Replacing one argument by a convertible one leaves the list of values.
  have args : (before ++ left :: after).map (termValue ctx assign) =
      (before ++ right :: after).map (termValue ctx assign) := by simp [same]
  rw [termValue, termValue, args, labelOf_conv (.arg op before after related)]

/-- Where labels agree, a node denotes the value of its term. -/
theorem LabelsAgree.denotes (agree : LabelsAgree ctx AcConv) (closed : ctx.Closed)
    (assign : OpaqueAssignment) {ref : Nat} {term : Term Nat} (inside : ref < ctx.graph.length)
    (has : HasTerm ctx (some ref) term) :
    ctx.Denotes (wilOpaque assign) (some ref) (termValue ctx assign term) := by
  obtain ⟨fuel, found⟩ := has
  refine ⟨fuel, ?_⟩
  -- The evaluation follows the recursion that found the term.
  induction fuel generalizing ref term with
  | zero => simp [wrsTerm] at found
  | succ fuel next =>
    have has : HasTerm ctx (some ref) term := ⟨fuel + 1, found⟩
    rw [wrsTerm] at found
    split at found
    · simp at found
    · rw [Option.map_eq_some_iff] at found
      obtain ⟨ids, traversed, rfl⟩ := found
      -- Its inputs denote the values of their terms.
      have inputs : (ctx.targets ref).mapM (Dag.eval (ctx.label (wilOpaque assign)) ctx.succ fuel) =
          some (ids.map (termValue ctx assign)) := by
        rw [Dag.mapM_eq_some_iff, List.forall₂_map_right_iff]
        rw [Dag.mapM_eq_some_iff, List.forall₂_iff_zip] at traversed
        refine List.forall₂_iff_zip.mpr ⟨traversed.1, fun {input id} member => ?_⟩
        have computed := traversed.2 member
        obtain ⟨target, rfl⟩ := HasTerm.present ⟨fuel, computed⟩
        exact next (closed ref target (List.of_mem_zip member).1) computed
      have stored := List.getElem?_eq_getElem inside
      have kind : kindAt ctx ref = ctx.graph[ref].kind := by
        simp [kindAt, deref, stored, wilNodeKind]
      -- The operator's name gives the kind back, so both sides apply the same function.
      rw [Dag.eval, show ctx.succ (some ref) = ctx.targets ref from rfl, inputs, Option.map_some]
      simp only [label, stored, Option.elim_some, denote_eq_label]
      rw [termValue, agree.labelOf_eq stored has, kindOfOp_wrsOpOfKind, kind, Option.bind_some]
      -- The label of an operator node is the operator.
      split
      · rename_i operator
        rw [wilLabel_operator operator]
        rfl
      · rfl

/-- A graph is translated soundly: nodes that compare as equivalent denote the same value, under
every assignment of the parameters and of the opaque nodes. -/
def EquivalenceSound (lib : Equinox) (ctx : WILContext) : Prop :=
  ∀ fuel, ∀ a < ctx.graph.length, ∀ b < ctx.graph.length,
    wrsNodesEquivalent ctx lib fuel (some a) (some b) = some true →
    ∀ assign value, ctx.Denotes (wilOpaque assign) (some a) value ↔
      ctx.Denotes (wilOpaque assign) (some b) value

/-- Two nodes that compare as equivalent are the same, or have convertible terms. -/
theorem wrsNodesEquivalent_true {lib : Equinox} (precise : lib.Exact) {fuel a b : Nat}
    (equivalent : wrsNodesEquivalent ctx lib fuel (some a) (some b) = some true) :
    a = b ∨ ∃ left right, HasTerm ctx (some a) left ∧ HasTerm ctx (some b) right ∧
      AcConv left right := by
  by_cases same : a = b
  · exact .inl same
  · right
    simp only [wrsNodesEquivalent, Option.some.injEq, same, if_false] at equivalent
    -- Both nodes are added, in this order, to one build.
    cases first : wrsAddNode ctx fuel [] (some a) with
    | outOfFuel => simp [first] at equivalent
    | failed => simp [first] at equivalent
    | added build left =>
      cases second : wrsAddNode ctx fuel build (some b) with
      | outOfFuel => simp [first, second] at equivalent
      | failed => simp [first, second] at equivalent
      | added build' right =>
        simp only [first, second, Option.some.injEq] at equivalent
        -- An empty build records no wrong term.
        have empty : BuildOk ctx (fun _ => True) [] := fun _ _ member => by simp at member
        obtain ⟨hasA, ok, -, recordedA⟩ :=
          wrsAddNode_spec (fun _ _ _ _ => trivial) fuel trivial empty first
        obtain ⟨hasB, -, grown, recordedB⟩ :=
          wrsAddNode_spec (fun _ _ _ _ => trivial) fuel trivial ok second
        -- The ids were merged, so by the assumption the terms are convertible.
        have merged := (precise _ _ _ left (List.mem_map_of_mem (grown recordedA)) right
          (List.mem_map_of_mem recordedB)).mp equivalent
        refine ⟨left, right, hasA, hasB, merged.mono fun _ _ equation => ?_⟩
        -- Without rules there are no equations to begin with.
        split at equation
        · exact equation
        · obtain ⟨rule, member, -⟩ := equation
          simp at member

/-- Two nodes of one term compare as equivalent. -/
theorem wrsNodesEquivalent_of_term {lib : Equinox} (precise : lib.Exact) {a b : Nat}
    {term : Term Nat} (left : HasTerm ctx (some a) term) (right : HasTerm ctx (some b) term) :
    ∃ fuel, wrsNodesEquivalent ctx lib fuel (some a) (some b) = some true := by
  -- Both nodes are added to one build, where their terms are the same.
  obtain ⟨fuelA, foundA⟩ := left
  obtain ⟨fuelB, foundB⟩ := right
  refine ⟨max fuelA fuelB, ?_⟩
  by_cases same : a = b
  · simp [wrsNodesEquivalent, same]
  -- Adding the first node keeps the build right, and adding the second keeps the first.
  · have empty : BuildOk ctx (fun _ => True) [] := fun _ _ member => by simp at member
    obtain ⟨build, first⟩ := wrsAddNode_complete (fun _ _ _ _ => trivial) _ trivial empty
      (wrsTerm_more foundA (Nat.le_max_left fuelA fuelB))
    obtain ⟨-, ok, -, recordedA⟩ :=
      wrsAddNode_spec (fun _ _ _ _ => trivial) _ trivial empty first
    obtain ⟨build', second⟩ := wrsAddNode_complete (fun _ _ _ _ => trivial) _ trivial ok
      (wrsTerm_more foundB (Nat.le_max_right fuelA fuelB))
    obtain ⟨-, -, grown, -⟩ := wrsAddNode_spec (fun _ _ _ _ => trivial) _ trivial ok second
    have added : term ∈ build'.map (·.2) := List.mem_map_of_mem (grown recordedA)
    simp only [wrsNodesEquivalent, Option.some.injEq, same, if_false, first, second]
    exact (precise _ _ _ term added term added).mpr (.refl term)

/-- Where labels agree, nodes in one class denote one value. -/
theorem EquivalenceSound.of_agree {lib : Equinox} (precise : lib.Exact) (closed : ctx.Closed)
    (agree : LabelsAgree ctx AcConv) : EquivalenceSound lib ctx := by
  intro fuel a insideA b insideB equivalent assign value
  rcases wrsNodesEquivalent_true precise equivalent with rfl | ⟨left, right, hasA, hasB, conv⟩
  · exact Iff.rfl
  · -- Both nodes denote the common value of their terms, and nothing else.
    have denotesA := agree.denotes closed assign insideA hasA
    have denotesB := agree.denotes closed assign insideB hasB
    rw [termValue_conv assign conv] at denotesA
    refine ⟨fun denotes => ?_, fun denotes => ?_⟩
    · rw [denotes.unique denotesA]
      exact denotesB
    · rw [denotes.unique denotesB]
      exact denotesA

variable (ctx) in
/-- A node with a term denotes the value of its label over some inputs. -/
theorem denotes_label (assign : OpaqueAssignment) {ref : Nat} {node : WILNode}
    {term : Term Nat} (found : ctx.graph[ref]? = some node) (has : HasTerm ctx (some ref) term) :
    ∃ inputs, ctx.Denotes (wilOpaque assign) (some ref) ((wilLabel node).value assign inputs) := by
  obtain ⟨fuel, computed⟩ := has
  obtain ⟨inputs, evaluated⟩ := wrsTerm_evaluates (ctx.label (wilOpaque assign)) computed
  refine ⟨inputs, fuel, ?_⟩
  rw [evaluated, label, found, Option.elim_some, denote_eq_label]

/-- Soundness makes the labels of nodes with equal terms agree. -/
theorem EquivalenceSound.agree {lib : Equinox} (precise : lib.Exact) 
    (sound : EquivalenceSound lib ctx) : LabelsAgree ctx Eq := by
  rintro left right leftNode rightNode term _ foundLeft foundRight hasLeft hasRight rfl
  obtain ⟨fuel, equivalent⟩ := wrsNodesEquivalent_of_term precise hasLeft hasRight
  have insideLeft := (List.getElem?_eq_some_iff.mp foundLeft).1
  have insideRight := (List.getElem?_eq_some_iff.mp foundRight).1
  have kinds : leftNode.kind = rightNode.kind := by
    obtain ⟨-, ids, equal, -⟩ := hasLeft.inputs
    obtain ⟨-, ids', equal', -⟩ := hasRight.inputs
    have ops := (Term.app.inj (equal.symm.trans equal')).1
    simpa [kindAt, deref, foundLeft, foundRight, wilNodeKind] using wrsOpOfKind_injective ops
  refine wilLabel_eq_of_value kinds fun assign => ?_
  obtain ⟨inputs, denotesLeft⟩ := denotes_label ctx assign foundLeft hasLeft
  obtain ⟨inputs', denotesRight⟩ := denotes_label ctx assign foundRight hasRight
  -- The common value of the two nodes is the value of either label.
  have moved := (sound fuel left insideLeft right insideRight equivalent assign _).mp denotesLeft
  exact ⟨inputs, inputs', moved.unique denotesRight⟩

variable (ctx) in
/-- Only operators have inputs. -/
def OperatorsOnly : Prop :=
  ∀ ref node, ctx.graph[ref]? = some node → node.kind.arity.isSome = false → ctx.targets ref = []

/-- Without casts and the like, labels that agree for equal terms agree for convertible ones. -/
theorem LabelsAgree.of_eq (agree : LabelsAgree ctx Eq) (only : OperatorsOnly ctx) :
    LabelsAgree ctx AcConv := by
  intro left right leftNode rightNode leftTerm rightTerm foundLeft foundRight hasLeft hasRight conv
  obtain ⟨-, ids, equal, inputs⟩ := hasLeft.inputs
  obtain ⟨-, ids', equal', -⟩ := hasRight.inputs
  by_cases operator : leftNode.kind.arity.isSome = true
  · -- Equations keep the operator at the root, and the label of an operator is its kind.
    have ops : wrsOpOfKind (kindAt ctx left) = wrsOpOfKind (kindAt ctx right) := by
      rw [equal, equal'] at conv
      refine conv.root_eq fun _ _ equation => ?_
      obtain ⟨kind, -, x, y, z, ⟨rfl, rfl⟩ | ⟨rfl, rfl⟩ | ⟨rfl, rfl⟩⟩ := equation.cases <;> rfl
    have kinds : leftNode.kind = rightNode.kind := by
      simpa [kindAt, deref, foundLeft, foundRight, wilNodeKind] using wrsOpOfKind_injective ops
    rw [wilLabel_operator operator, wilLabel_operator (kinds ▸ operator), kinds]
  · have leaf := only left leftNode foundLeft (Bool.eq_false_iff.mpr operator)
    rw [leaf, List.forall₂_nil_left_iff] at inputs
    subst inputs
    -- No equation mentions a term without arguments.
    rw [equal] at conv
    have same := conv.constant fun _ _ op equation => by
      obtain ⟨kind, -, x, y, z, ⟨rfl, rfl⟩ | ⟨rfl, rfl⟩ | ⟨rfl, rfl⟩⟩ := equation.cases <;> simp
    rw [same, ← equal] at hasRight
    exact agree left right leftNode rightNode leftTerm leftTerm foundLeft foundRight hasLeft
      hasRight rfl

end Graph

/-- Comparing nodes in the e-graph is sound where nodes of convertible terms have one label, and
only where nodes of equal terms have one. Without casts and the like the two conditions meet. -/
theorem wrsNodesEquivalent_sound_iff {lib : Equinox} (precise : lib.Exact) {ctx : WILContext}
    (consistent : DefUse ctx) :
    (LabelsAgree ctx AcConv → EquivalenceSound lib ctx) ∧
      (EquivalenceSound lib ctx → LabelsAgree ctx Eq) ∧
      (OperatorsOnly ctx → (EquivalenceSound lib ctx ↔ LabelsAgree ctx AcConv)) := by
  -- Labels that agree on convertible terms are enough, and on equal terms are needed.
  have enough : LabelsAgree ctx AcConv → EquivalenceSound lib ctx :=
    EquivalenceSound.of_agree precise consistent.closed
  have needed : EquivalenceSound lib ctx → LabelsAgree ctx Eq := fun sound => sound.agree precise
  exact ⟨enough, needed, fun only => ⟨fun sound => (needed sound).of_eq only, enough⟩⟩

open Classical in
/-- The library that merges exactly what it should. -/
noncomputable def exactEquinox : Equinox :=
  ⟨fun _ rules _ left right => decide (Conv (EqxEquation rules) left right)⟩

/-- The exact library merges what it should and nothing else. -/
theorem exactEquinox_exact : exactEquinox.Exact := by
  intro added rules rounds left _ right _
  simp only [exactEquinox, decide_eq_true_eq]

/-- Two different constants. -/
def twoConstants : WILContext :=
  runCalls (empty 7) [.makeConstInt 1 .i32, .makeConstInt 2 .i32]

/-- The use lists of the two constants are exact. -/
theorem twoConstants_defUse : DefUse twoConstants := (defUse_empty 7).calls _ (by decide)

/-- The sums of a parameter and a constant, in both orders. -/
def bothSums : WILContext :=
  runCalls (empty 7) [.makeParam 0 .i32 none, .makeConstInt 2 .i32,
    .makeBinary .add (some 0) (some 1), .makeBinary .add (some 1) (some 0)]

/-- No two nodes of one kind differ in their labels, so that comparing the sums is sound. -/
theorem wrsNodesEquivalent_sound_iff_both_sums : EquivalenceSound exactEquinox bothSums := by
  -- The graph is small enough to look through.
  have consistent : DefUse bothSums := (defUse_empty 7).calls _ (by decide)
  have inside : ∀ {ref node}, bothSums.graph[ref]? = some node → ref < 4 := by
    intro ref node found
    exact (List.getElem?_eq_some_iff.mp found).1
  have only : OperatorsOnly bothSums := by
    intro ref node found other
    have leaves : ∀ ref < 4, (bothSums.graph[ref]?).map (·.kind.arity.isSome) = some false →
        bothSums.targets ref = [] := by decide
    refine leaves ref (inside found) ?_
    rw [found, Option.map_some, other]
  have agree : LabelsAgree bothSums Eq := by
    intro left right leftNode rightNode leftTerm rightTerm foundLeft foundRight hasLeft hasRight same
    obtain ⟨-, ids, equal, -⟩ := hasLeft.inputs
    obtain ⟨-, ids', equal', -⟩ := hasRight.inputs
    -- Terms that are equal have one kind at the root.
    rw [same, equal', Term.app.injEq] at equal
    have labels : ∀ left < 4, ∀ right < 4, kindAt bothSums left = kindAt bothSums right →
        (bothSums.graph[left]?).map wilLabel = (bothSums.graph[right]?).map wilLabel := by decide
    have equalLabels := labels left (inside foundLeft) right (inside foundRight)
      (wrsOpOfKind_injective equal.1.symm)
    rw [foundLeft, foundRight] at equalLabels
    exact Option.some.inj equalLabels
  exact ((wrsNodesEquivalent_sound_iff exactEquinox_exact consistent).2.2 only).mpr
    (agree.of_eq only)

/-- The constants one and two compare as equivalent, whatever merges only what it should. -/
theorem wrsNodesEquivalent_not_sound :
    ¬ ∀ lib : Equinox, lib.Exact → ∀ ctx : WILContext, DefUse ctx → EquivalenceSound lib ctx := by
  intro sound
  have claimed := sound exactEquinox exactEquinox_exact twoConstants twoConstants_defUse
  have equivalent :
      wrsNodesEquivalent twoConstants exactEquinox 1 (some 0) (some 1) = some true := by
    have merged : exactEquinox.merged [.app 1 [], .app 1 []] [] 8 (.app 1 []) (.app 1 []) = true :=
      (exactEquinox_exact _ _ _ _ (.head _) _ (.head _)).mpr (.refl _)
    exact congrArg some merged
  let assign : OpaqueAssignment :=
    ⟨fun _ => none, fun _ _ => none, fun _ _ _ _ => none, fun _ => none⟩
  have first : twoConstants.Denotes (wilOpaque assign) (some 0) (some ⟨32, 1#32⟩) :=
    ⟨1, by decide⟩
  have second : twoConstants.Denotes (wilOpaque assign) (some 1) (some ⟨32, 2#32⟩) :=
    ⟨1, by decide⟩
  -- Soundness would give the second constant the value of the first.
  have moved := (claimed 1 0 (by decide) 1 (by decide) equivalent assign _).mp first
  exact absurd (moved.unique second) (by decide)

end Wirble
