import Wirble.Wrs.Idle

/-! The types of matched nodes, and of the nodes that right-hand sides build. -/

namespace Wirble

open WILContext

/-- The types of integers and truth values. -/
def WILType.isInteger : WILType → Bool
  | .i1 | .i8 | .i16 | .i32 | .i64 => true
  | _ => false

/-- An operator may have the type over inputs of the given types. -/
def WILNodeKind.Typed (kind : WILNodeKind) (inputs : List (Option WILType)) (type : WILType) :
    Prop :=
  match kind with
  | .add | .sub | .mul | .div | .mod | .and | .or | .xor =>
    inputs = [some type, some type] ∧ type.isInteger
  | .shl | .shr => ∃ amount, inputs = [some type, some amount] ∧ type.isInteger ∧ amount.isInteger
  | .neg | .not | .abs => inputs = [some type] ∧ type.isInteger
  | .eq | .ne | .lt | .le | .gt | .ge =>
    type = .i1 ∧ ∃ operand, inputs = [some operand, some operand] ∧ operand.isInteger
  | .select => inputs = [some .i1, some type, some type] ∧ type.isInteger
  | _ => True

namespace WILContext

/-- The type of the node behind a pointer, nothing for the null pointer. -/
def typeOf (ctx : WILContext) (pointer : Option Nat) : Option WILType :=
  (ctx.deref pointer).map (·.type)

/-- A consistent graph whose operators fit their inputs, with truth values of type `i1`. -/
structure WellTyped (ctx : WILContext) : Prop where
  consistent : DefUse ctx
  -- An operator without inputs was removed from the graph.
  operators : ∀ (node : Nat) (record : WILNode), ctx.graph[node]? = some record →
    ctx.targets node ≠ [] →
    record.kind.Typed ((ctx.targets node).map ctx.typeOf) record.type
  truths : ∀ (node : Nat) (record : WILNode), ctx.graph[node]? = some record →
    record.kind = .constBool → record.type = .i1

/-- The type is part of what edits keep of a node. -/
theorem typeOf_eq_core (ctx : WILContext) (node : Nat) :
    ctx.typeOf (some node) = ((ctx.graph[node]?).map WILNode.core).map (·.type) := by
  rw [typeOf, deref, Option.bind_some, Option.map_map]
  rfl

end WILContext

/-- Edits of slots and uses keep all types. -/
theorem SameNodes.typeOf {before after : WILContext} (same : SameNodes before after)
    (pointer : Option Nat) : after.typeOf pointer = before.typeOf pointer := by
  cases pointer with
  | none => rfl
  | some node => rw [typeOf_eq_core, typeOf_eq_core, same.core]

/-- Growth keeps the types of old nodes. -/
theorem Built.typeOf {base : Nat} {allowed : Option Nat → Prop} {before after : WILContext}
    (built : Built base allowed before after) {pointer : Option Nat}
    (inside : ∀ ref, pointer = some ref → ref < before.graph.length) :
    after.typeOf pointer = before.typeOf pointer := by
  cases pointer with
  | none => rfl
  | some node => rw [typeOf_eq_core, typeOf_eq_core, built.core node (inside node rfl)]

/-! Where a matched pattern has the type of the node. -/

/-- For each input of an operator, whether it has the type of the result. -/
def WILNodeKind.sameTyped : WILNodeKind → List Bool
  | .add | .sub | .mul | .div | .mod | .and | .or | .xor => [true, true]
  | .shl | .shr => [true, false]
  | .neg | .not | .abs => [true]
  | .eq | .ne | .lt | .le | .gt | .ge => [false, false]
  | .select => [false, true, true]
  | _ => []

/-- The result of a comparison is a truth value. -/
def WILNodeKind.isComparison : WILNodeKind → Bool
  | .eq | .ne | .lt | .le | .gt | .ge => true
  | _ => false

/-- The inputs that share the type of the result do so in a typed operator. -/
theorem WILNodeKind.Typed.same {kind : WILNodeKind} {inputs : List (Option WILType)}
    {type : WILType} (typed : kind.Typed inputs type) :
    ∀ pair ∈ kind.sameTyped.zip inputs, pair.1 = true → pair.2 = some type := by
  intro pair member flagged
  -- The kinds differ in which of their inputs share the type.
  cases kind <;> simp only [Typed, sameTyped] at typed member <;>
    first
    | (obtain ⟨rfl, -⟩ := typed; simp at member; grind)
    | (obtain ⟨amount, rfl, -⟩ := typed; simp at member; grind)
    | (obtain ⟨-, operand, rfl, -⟩ := typed; simp at member; grind)
    | simp at member

namespace WILPattern

mutual

/-- Every occurrence of the name in the pattern has the type of the whole pattern. -/
def carries (name : String) : WILPattern → Bool
  | node kind inputs => carriesList name kind.sameTyped inputs
  | _ => true

/-- Every occurrence of the name is in a marked input, and has the type of that input. -/
def carriesList (name : String) : List Bool → List WILPattern → Bool
  | _, [] => true
  | [], pattern :: patterns => name ∉ pattern.vars && carriesList name [] patterns
  | marked :: rest, pattern :: patterns =>
    (if marked then pattern.carries name else name ∉ pattern.vars) &&
      carriesList name rest patterns

end

mutual

/-- Whatever the pattern matches is a truth value. -/
def truth : WILPattern → Bool
  | constBool _ => true
  | node kind inputs => kind.isComparison || truthList kind.sameTyped inputs
  | _ => false

/-- Some marked input is a truth value. -/
def truthList : List Bool → List WILPattern → Bool
  | marked :: rest, pattern :: patterns => marked && pattern.truth || truthList rest patterns
  | _, _ => false

end

end WILPattern

section Match

variable {equivalent : WILContext → Option Nat → Option Nat → Bool} {ctx : WILContext}

/-- What a match of an operator pattern says about the node. -/
theorem wrsMatchPattern_operator {subst extended : WILSubstitution} {kind : WILNodeKind}
    {inputs : List WILPattern} {node : Option Nat} (arity : kind.arity = some inputs.length)
    (typed : ctx.WellTyped)
    (found : wrsMatchPattern equivalent ctx subst (.node kind inputs) node = some extended) :
    ∃ ref type, node = some ref ∧ ctx.typeOf node = some type ∧
      kind.Typed ((ctx.targets ref).map ctx.typeOf) type ∧
      (ctx.targets ref).length = inputs.length ∧
      matchInputs equivalent ctx subst inputs (ctx.targets ref) = some extended := by
  cases node with
  | none => simp [wrsMatchPattern] at found
  | some ref =>
    cases stored : ctx.graph[ref]? with
    | none => simp [wrsMatchPattern, deref, stored] at found
    | some record =>
      simp only [wrsMatchPattern, deref, Option.bind_some, stored,
        Option.ite_none_right_eq_some] at found
      obtain ⟨⟨rfl, count⟩, below⟩ := found
      have lengths : (ctx.targets ref).length = inputs.length := by
        rw [targets_of_node stored, WILNode.targets, List.length_map, count]
      -- An operator has at least one input, so the node was not removed.
      have present : ctx.targets ref ≠ [] := by
        rw [← List.length_pos_iff, lengths]
        cases inputs with
        | nil => cases kind : record.kind <;> simp [kind, WILNodeKind.arity] at arity
        | cons => exact Nat.succ_pos _
      exact ⟨ref, record.type, rfl, by simp [typeOf, deref, stored],
        typed.operators ref record stored present, lengths, below⟩

mutual

/-- A new binding of a name that carries the type has the type of the matched node. -/
theorem wrsMatchPattern_carries (typed : ctx.WellTyped) {name : String} {bound : Option Nat} :
    ∀ {pattern : WILPattern} {node : Option Nat} {subst extended : WILSubstitution},
      pattern.simple = true → pattern.carries name = true →
      wrsMatchPattern equivalent ctx subst pattern node = some extended →
      subst.lookup name = none → extended.lookup name = some bound →
      ctx.typeOf bound = ctx.typeOf node
  | .var (some own), node, subst, extended, _, _, found, fresh, known => by
    -- The only binding that is new is that of the node itself.
    rw [wrsMatchPattern] at found
    obtain ⟨more, rfl, entries⟩ := bind_binds found
    rw [List.lookup_append, fresh, Option.none_or] at known
    obtain ⟨front, back, rfl, -⟩ := List.lookup_eq_some_iff.mp known
    have same : bound = node := entries (name, bound) (by simp)
    rw [same]
  | .node kind inputs, node, subst, extended, simple, carried, found, fresh, known => by
    simp only [WILPattern.simple, Bool.and_eq_true, decide_eq_true_eq] at simple
    obtain ⟨ref, type, rfl, sameType, fits, lengths, below⟩ :=
      wrsMatchPattern_operator simple.1 typed found
    rw [sameType]
    refine matchInputs_carries typed simple.2 carried ?_ below fresh known
    -- The marked inputs have the type of the operator.
    intro pair member marked
    have zipped : (pair.1, ctx.typeOf pair.2) ∈
        kind.sameTyped.zip ((ctx.targets ref).map ctx.typeOf) := by
      rw [List.zip_map_right]
      exact List.mem_map_of_mem member
    exact fits.same _ zipped marked
  -- Constants bind no name.
  | .constInt _, node, subst, extended, _, _, found, fresh, known
  | .constBool _, node, subst, extended, _, _, found, fresh, known => by
    simp only [wrsMatchPattern, wrsMatchPattern.matchConstantAt, Option.ite_none_right_eq_some,
      Option.some.injEq] at found
    rw [← found.2, fresh] at known
    cases known
  | .var none, _, _, _, simple, _, _, _, _ | .null, _, _, _, simple, _, _, _, _
  | .constFloat _, _, _, _, simple, _, _, _, _ | .wildcard, _, _, _, simple, _, _, _, _
  | .predicate _, _, _, _, simple, _, _, _, _ | .sequence _ _, _, _, _, simple, _, _, _, _
  | .refinement _, _, _, _, simple, _, _, _, _ => by simp [WILPattern.simple] at simple

/-- A list of patterns that carry a name's type binds the name to a node of that type. -/
theorem matchInputs_carries (typed : ctx.WellTyped) {name : String} {bound : Option Nat}
    {type : Option WILType} :
    ∀ {patterns : List WILPattern} {flags : List Bool} {nodes : List (Option Nat)}
      {subst extended : WILSubstitution},
      WILPattern.simpleList patterns = true → WILPattern.carriesList name flags patterns = true →
      (∀ pair ∈ flags.zip nodes, pair.1 = true → ctx.typeOf pair.2 = type) →
      matchInputs equivalent ctx subst patterns nodes = some extended →
      subst.lookup name = none → extended.lookup name = some bound → ctx.typeOf bound = type
  | [], _, _, subst, extended, _, _, _, found, fresh, known => by
    simp only [matchInputs, Option.some.injEq] at found
    rw [← found, fresh] at known
    cases known
  | _ :: _, _, [], _, _, _, _, _, found, _, _ => by cases found
  | pattern :: patterns, flags, node :: nodes, subst, extended, simple, carried, same, found,
      fresh, known => by
    simp only [WILPattern.simpleList, Bool.and_eq_true] at simple
    obtain ⟨middle, first, rest⟩ := Option.bind_eq_some_iff.mp found
    -- A pattern without the name leaves it unbound.
    have unbound : name ∉ pattern.vars → middle.lookup name = none := by
      intro absent
      rw [lookup_eq_none_iff_keys] at fresh ⊢
      rw [wrsMatchPattern_keys first, mem_bindNames]
      exact fun either => either.elim fresh absent
    cases flags with
    | nil =>
      simp only [WILPattern.carriesList, Bool.and_eq_true, decide_eq_true_eq] at carried
      exact matchInputs_carries typed simple.2 carried.2 (by simp) rest (unbound carried.1) known
    | cons marked flags =>
      simp only [WILPattern.carriesList, Bool.and_eq_true] at carried
      have sameRest : ∀ pair ∈ flags.zip nodes, pair.1 = true → ctx.typeOf pair.2 = type :=
        fun pair member => same pair (.tail _ member)
      -- The name is bound by this pattern or by a later one.
      cases bind : middle.lookup name with
      | none => exact matchInputs_carries typed simple.2 carried.2 sameRest rest bind known
      | some early =>
        -- The first pattern binds the name, and later ones keep the binding.
        obtain ⟨more, rfl, -⟩ := matchInputs_binds rest
        rw [lookup_append_of_some bind, Option.some.injEq] at known
        subst known
        cases marked with
        | false =>
          have absent : name ∉ pattern.vars := by simpa using carried.1
          rw [unbound absent] at bind
          cases bind
        | true =>
          have inner : pattern.carries name = true := by simpa using carried.1
          rw [wrsMatchPattern_carries typed simple.1 inner first fresh bind]
          exact same (true, node) (.head _) rfl

end

/-- Covered patterns are as many as the nodes. -/
theorem CoversList.length {subst : WILSubstitution} {patterns : List WILPattern}
    {nodes : List (Option Nat)} (covered : CoversList equivalent ctx subst patterns nodes) :
    nodes.length = patterns.length := by
  -- Both lists are taken apart together.
  induction patterns generalizing nodes with
  | nil =>
    cases nodes with
    | nil => rfl
    | cons node nodes => exact covered.elim
  | cons pattern patterns next =>
    cases nodes with
    | nil => exact covered.elim
    | cons node nodes => exact congrArg (· + 1) (next covered.2)

mutual

/-- A pattern that only truth values match matches nodes of type `i1`. -/
theorem Covers.truth (typed : ctx.WellTyped) {subst : WILSubstitution} :
    ∀ {pattern : WILPattern} {node : Option Nat}, pattern.simple = true →
      pattern.truth = true → Covers equivalent ctx subst pattern node →
      ctx.typeOf node = some .i1
  -- A boolean constant has the type of truth values.
  | .constBool _, node, _, _, covered => by
    obtain ⟨record, stored, kind, -⟩ := covered
    cases node with
    | none => cases stored
    | some ref =>
      have found : ctx.graph[ref]? = some record := by simpa [deref] using stored
      rw [typeOf, stored, Option.map_some, typed.truths ref record found kind]
  | .node kind inputs, node, simple, truth, covered => by
    simp only [WILPattern.simple, Bool.and_eq_true, decide_eq_true_eq] at simple
    obtain ⟨ref, record, rfl, stored, rfl, below⟩ := covered
    have lengths := below.length
    have present : ctx.targets ref ≠ [] := by
      rw [← List.length_pos_iff, lengths]
      cases inputs with
      | nil => cases kind : record.kind <;> simp [kind, WILNodeKind.arity] at simple
      | cons => exact Nat.succ_pos _
    -- The operator fits the types of its inputs.
    have fits := typed.operators ref record stored present
    have type : ctx.typeOf (some ref) = some record.type := by simp [typeOf, deref, stored]
    rw [type]
    -- A comparison is a truth value itself, any other kind has the type of some input.
    rcases Bool.or_eq_true_iff.mp truth with comparison | inner
    · cases kind : record.kind <;> simp [kind, WILNodeKind.isComparison] at comparison <;>
        (rw [kind] at fits; rw [fits.1])
    · refine CoversList.truth typed simple.2 inner ?_ below
      -- The inputs that decide the type have the operator's own.
      intro pair member marked
      have zipped : (pair.1, ctx.typeOf pair.2) ∈
          record.kind.sameTyped.zip ((ctx.targets ref).map ctx.typeOf) := by
        rw [List.zip_map_right]
        exact List.mem_map_of_mem member
      exact fits.same _ zipped marked
  | .var _, _, _, truth, _ | .constInt _, _, _, truth, _ | .null, _, _, truth, _
  | .constFloat _, _, _, truth, _ | .wildcard, _, _, truth, _ | .predicate _, _, _, truth, _
  | .sequence _ _, _, _, truth, _ | .refinement _, _, _, truth, _ => by
    simp [WILPattern.truth] at truth

/-- Operands in truth positions of a match are truth values. -/
theorem CoversList.truth (typed : ctx.WellTyped) {subst : WILSubstitution}
    {type : Option WILType} :
    ∀ {patterns : List WILPattern} {flags : List Bool} {nodes : List (Option Nat)},
      WILPattern.simpleList patterns = true → WILPattern.truthList flags patterns = true →
      (∀ pair ∈ flags.zip nodes, pair.1 = true → ctx.typeOf pair.2 = type) →
      CoversList equivalent ctx subst patterns nodes → type = some .i1
  | [], flags, _, _, truth, _, _ => by cases flags <;> simp [WILPattern.truthList] at truth
  | _ :: _, [], _, _, truth, _, _ => by simp [WILPattern.truthList] at truth
  | _ :: _, _ :: _, [], _, _, _, covered => covered.elim
  | pattern :: patterns, marked :: flags, node :: nodes, simple, truth, same, covered => by
    simp only [WILPattern.simpleList, Bool.and_eq_true] at simple
    simp only [WILPattern.truthList, Bool.or_eq_true, Bool.and_eq_true] at truth
    -- The marked operand is covered by the first pattern, or by a later one.
    rcases truth with ⟨rfl, inner⟩ | later
    · rw [← same (true, node) (.head _) rfl]
      exact Covers.truth typed simple.1 inner covered.1
    · exact CoversList.truth typed simple.2 later (fun pair member => same pair (.tail _ member))
        covered.2

end

end Match

/-! The types of built nodes. -/

/-- Where the type of what a pattern builds comes from. -/
inductive TypeSource where
  | ofName (name : String)
  /-- A truth value, of type `i1`. -/
  | truth
  /-- An integer constant, of type `i32` whatever stands around it. -/
  | word
  deriving DecidableEq, Repr

/-- The input from which a builder takes the type of an operator, none for a comparison. -/
def WILNodeKind.typeInput (kind : WILNodeKind) : Option Nat :=
  if kind.isComparison then none else if kind = .select then some 1 else some 0

namespace WILPattern

mutual

/-- The source of the type of a pattern's node. -/
def typeSource : WILPattern → TypeSource
  | var (some name) | sequence (some name) _ => .ofName name
  | constBool _ => .truth
  | node kind inputs =>
    match kind.typeInput with
    | some index => typeSourceAt inputs index
    | none => .truth
  | refinement base => base.typeSource
  | _ => .word

/-- The source of the type of one input. -/
def typeSourceAt : List WILPattern → Nat → TypeSource
  | [], _ => .word
  | pattern :: _, 0 => pattern.typeSource
  | _ :: patterns, index + 1 => typeSourceAt patterns index

end

end WILPattern

mutual

/-- A name that decides the type occurs in the pattern. -/
theorem WILPattern.typeSource_mem {name : String} : ∀ {pattern : WILPattern},
    pattern.simple = true → pattern.typeSource = .ofName name → name ∈ pattern.vars
  | .var (some own), _, source => by
    -- A variable decides by itself.
    cases source
    simp [vars]
  | .node kind inputs, simple, source => by
    simp only [WILPattern.simple, Bool.and_eq_true] at simple
    rw [typeSource] at source
    rw [vars]
    -- A kind without a deciding input takes its type from no name.
    cases decided : kind.typeInput with
    | none => simp [decided] at source
    | some index =>
      rw [decided] at source
      exact typeSourceAt_mem simple.2 source
  | .constInt _, _, source | .constBool _, _, source => by cases source
  | .var none, simple, _ | .null, simple, _ | .constFloat _, simple, _ | .wildcard, simple, _
  | .predicate _, simple, _ | .sequence _ _, simple, _ | .refinement _, simple, _ => by
    simp [WILPattern.simple] at simple

/-- A name that gives an input its type is a name of the patterns. -/
theorem WILPattern.typeSourceAt_mem {name : String} :
    ∀ {patterns : List WILPattern} {index : Nat}, simpleList patterns = true →
      typeSourceAt patterns index = .ofName name → name ∈ varsList patterns
  | [], _, _, source => by cases source
  | pattern :: patterns, 0, simple, source => by
    -- The deciding input is the first pattern, or a later one.
    simp only [simpleList, Bool.and_eq_true] at simple
    exact List.mem_append_left _ (typeSource_mem simple.1 source)
  | pattern :: patterns, index + 1, simple, source => by
    simp only [simpleList, Bool.and_eq_true] at simple
    exact List.mem_append_right _ (typeSourceAt_mem simple.2 source)

end

/-- A source gives a type, under a substitution over a graph. -/
def TypeSource.Gives (ctx : WILContext) (subst : WILSubstitution) (type : WILType) :
    TypeSource → Prop
  | .ofName name => ctx.typeOf (wilSubstitutionLookup subst (some name)) = some type
  | .truth => type = .i1
  | .word => type = .i32

/-- The node of a builder has the type that the builder was given. -/
theorem typeOf_build (ctx : WILContext) (kind : WILNodeKind) (type : WILType)
    (name : Option String) (payload : WILNodePayload)
    (inputs : List (Option Nat × WILEdgeKind)) :
    (wilBuild ctx kind type name payload inputs).1.typeOf (some ctx.graph.length) = some type := by
  rw [typeOf_eq_core, core_build, if_pos rfl]
  rfl

/-- Outside of selects the first input decides the type, if any. -/
theorem typeInput_first {kind : WILNodeKind} {decided : Nat → Prop} {other : Prop}
    (notSelect : kind ≠ .select)
    (holds : match kind.typeInput with
      | some index => decided index
      | none => other) : if kind.isComparison then other else decided 0 := by
  rw [WILNodeKind.typeInput, if_neg notSelect] at holds
  -- A comparison and any other kind read off the first input alike.
  cases comparison : kind.isComparison with
  | true => simpa [comparison] using holds
  | false => simpa [comparison] using holds

/-- Unary and binary builders take the type of their first input, except for comparisons. -/
theorem builtType_operator {ctx : WILContext} {kind : WILNodeKind} {first : Option Nat}
    {type : WILType} (operator : kind.arity = some 1 ∨ kind.arity = some 2)
    (decided : if kind.isComparison then type = .i1 else ctx.typeOf first = some type) :
    builtType ctx kind .void first = type := by
  -- The builder passes no type, so the default of the kind is taken.
  have read : builtType ctx kind .void first = wilNodeKindDefaultType kind .void (ctx.typeOf first) :=
    rfl
  rw [read]
  cases comparison : kind.isComparison with
  | true =>
    simp only [comparison, if_true] at decided
    rw [decided]
    cases kind <;> simp [WILNodeKind.isComparison] at comparison <;> rfl
  | false =>
    simp only [comparison, Bool.false_eq_true, if_false] at decided
    rw [decided]
    cases kind <;> simp [WILNodeKind.isComparison, WILNodeKind.arity] at comparison operator <;> rfl

/-- The node of an operator pattern has the type of the input that decides it. -/
theorem typeOf_operator (subst : WILSubstitution) {kind : WILNodeKind}
    {inputs : List WILPattern} (arity : kind.arity = some inputs.length) (ctx : WILContext)
    {type : WILType} (given : type ≠ .void)
    (decided : match kind.typeInput with
      | some index =>
        (wrsApplyPatterns subst inputs ctx).1.typeOf
          ((wrsApplyPatterns subst inputs ctx).2[index]?).join = some type
      | none => type = .i1) :
    (wrsApplyPattern subst (.node kind inputs) ctx).1.typeOf
      (wrsApplyPattern subst (.node kind inputs) ctx).2 = some type := by
  simp only [wrsApplyPattern]
  generalize wrsApplyPatterns subst inputs ctx = built at decided ⊢
  obtain ⟨grown, nodes⟩ := built
  rw [arity]
  -- The arity decides which of the three builders is called.
  generalize inputs.length = count at arity ⊢
  rcases WILNodeKind.arity_cases arity with rfl | rfl | ⟨rfl, rfl⟩
  -- One input and two inputs are built in the same way.
  · have built := typeOf_build grown kind (builtType grown kind .void (nodes[0]?).join) none .zero
      [((nodes[0]?).join, if kind = .returnNode then .control else .data)]
    refine built.trans (congrArg some (builtType_operator (.inl arity) ?_))
    exact typeInput_first (by rintro rfl; cases arity) decided
  · have built := typeOf_build grown kind (builtType grown kind .void (nodes[0]?).join) none .zero
      [((nodes[0]?).join, .data), ((nodes[1]?).join, .data)]
    refine built.trans (congrArg some (builtType_operator (.inr arity) ?_))
    exact typeInput_first (by rintro rfl; cases arity) decided
  -- A selection has the type of its second input.
  · have built := typeOf_build grown .select (builtType grown .select
      (wilNodeType (grown.deref (nodes[1]?).join)) (nodes[0]?).join) none .zero
      [((nodes[0]?).join, .data), ((nodes[1]?).join, .data), ((nodes[2]?).join, .data)]
    refine built.trans ?_
    -- The hint of a select is the type of its second input.
    have second : grown.typeOf (nodes[1]?).join = some type := decided
    obtain ⟨record, stored, rfl⟩ := Option.map_eq_some_iff.mp second
    rw [stored]
    simp [builtType, wilNodeKindDefaultType, wilNodeType, given]

section Build

variable {subst : WILSubstitution} {start : WILContext} {allowed : Option Nat → Prop}

mutual

/-- A simple pattern builds a node of the type that its source gives. -/
theorem wrsApplyPattern_type {type : WILType} (given : type ≠ .void)
    (bounded : ∀ name, allowed (wilSubstitutionLookup subst (some name)))
    (inside : ∀ ref, allowed (some ref) → ref < start.graph.length) :
    ∀ {pattern : WILPattern} {ctx : WILContext}, pattern.simple = true →
      Built start.graph.length allowed start ctx →
      pattern.typeSource.Gives start subst type →
      (wrsApplyPattern subst pattern ctx).1.typeOf (wrsApplyPattern subst pattern ctx).2 = some type
  | .var (some name), ctx, _, built, gives => by
    -- A name stands for a node that keeps its type.
    rw [wrsApplyPattern, built.typeOf fun ref equal => inside ref (equal ▸ bounded name)]
    exact gives
  | .constInt value, ctx, _, _, gives => by
    have same : type = .i32 := gives
    rw [same]
    exact typeOf_build ctx .constInt .i32 none (.int value) []
  | .constBool value, ctx, _, _, gives => by
    have same : type = .i1 := gives
    rw [same]
    exact typeOf_build ctx .constBool .i1 none (.bool value) []
  | .node kind inputs, ctx, simple, built, gives => by
    simp only [WILPattern.simple, Bool.and_eq_true, decide_eq_true_eq] at simple
    refine typeOf_operator subst simple.1 ctx given ?_
    rw [WILPattern.typeSource] at gives
    -- A kind without a deciding input has a type of its own.
    cases decided : kind.typeInput with
    | none =>
      rw [decided] at gives
      exact gives
    | some index =>
      rw [decided] at gives
      -- The deciding input is one of the inputs.
      have valid : index < inputs.length := by
        have arity := simple.1
        cases kind <;> simp_all [WILNodeKind.arity, WILNodeKind.typeInput,
          WILNodeKind.isComparison] <;> omega
      exact wrsApplyPatterns_type given bounded inside simple.2 built valid gives
  | .var none, _, simple, _, _ | .null, _, simple, _, _ | .constFloat _, _, simple, _, _
  | .wildcard, _, simple, _, _ | .predicate _, _, simple, _, _ | .sequence _ _, _, simple, _, _
  | .refinement _, _, simple, _, _ => by simp [WILPattern.simple] at simple

/-- Inputs that are built have the types that the patterns take from their names. -/
theorem wrsApplyPatterns_type {type : WILType} (given : type ≠ .void)
    (bounded : ∀ name, allowed (wilSubstitutionLookup subst (some name)))
    (inside : ∀ ref, allowed (some ref) → ref < start.graph.length) :
    ∀ {patterns : List WILPattern} {ctx : WILContext} {index : Nat},
      WILPattern.simpleList patterns = true → Built start.graph.length allowed start ctx →
      index < patterns.length →
      (WILPattern.typeSourceAt patterns index).Gives start subst type →
      (wrsApplyPatterns subst patterns ctx).1.typeOf
        ((wrsApplyPatterns subst patterns ctx).2[index]?).join = some type
  | [], _, _, _, _, valid, _ => by cases valid
  | pattern :: patterns, ctx, index, simple, built, valid, gives => by
    simp only [WILPattern.simpleList, Bool.and_eq_true] at simple
    have old : ∀ ref, allowed (some ref) → ref < ctx.graph.length :=
      fun ref known => Nat.lt_of_lt_of_le (inside ref known) built.longer
    obtain ⟨first, placed⟩ : Built start.graph.length allowed ctx
          (wrsApplyPattern subst pattern ctx).1 ∧ _ :=
      wrsApplyPattern_built simple.1 built.consistent built.longer (fun name _ => bounded name) old
    have after := built.trans first
    rw [wrsApplyPatterns]
    cases index with
    | zero =>
      -- The rest of the inputs only add nodes.
      have oldAfter : ∀ ref, allowed (some ref) →
          ref < (wrsApplyPattern subst pattern ctx).1.graph.length :=
        fun ref known => Nat.lt_of_lt_of_le (inside ref known) after.longer
      have rest := (wrsApplyPatterns_built simple.2 after.consistent after.longer
        (fun name _ => bounded name) oldAfter).1
      simp only [List.getElem?_cons_zero, Option.join_some]
      rw [rest.typeOf placed.2]
      exact wrsApplyPattern_type given bounded inside simple.1 built gives
    | succ index =>
      exact wrsApplyPatterns_type given bounded inside simple.2 after (Nat.lt_of_succ_lt_succ valid)
        gives

end

end Build

end Wirble
