import Wirble.Wrs.Validated

/-! A match succeeds just when an assignment makes the pattern equal to the term below a node. -/

namespace Wirble

open WILContext

/-- Every node has the category that creation gives to its kind. -/
def WILContext.Categories (ctx : WILContext) : Prop :=
  ∀ (ref : Nat) (record : WILNode), ctx.graph[ref]? = some record →
    record.category = wilNodeKindCategory record.kind

/-- Edits of slots and uses keep the categories. -/
theorem SameNodes.categories {before after : WILContext} (same : SameNodes before after)
    (categories : before.Categories) : after.Categories := by
  intro ref record found
  have kept := same.core ref
  rw [found] at kept
  cases stored : before.graph[ref]? with
  | none => simp [stored] at kept
  | some earlier =>
    -- The core of a record holds its kind and its category.
    have cores : record.core = earlier.core := by simpa [stored] using kept
    have kind : record.core.kind = earlier.core.kind := congrArg WILNode.kind cores
    have category : record.core.category = earlier.core.category :=
      congrArg WILNode.category cores
    simp only [WILNode.core] at kind category
    rw [kind, category]
    exact categories ref earlier stored

/-- A created node has the category of its kind. -/
theorem WILContext.Categories.create {ctx : WILContext} (categories : ctx.Categories)
    (kind : WILNodeKind) (type : WILType) (name : Option String) (payload : WILNodePayload) :
    (wilNodeCreate ctx kind type name payload).1.Categories := by
  intro ref record found
  rw [graph_create_get] at found
  -- The new node has its kind's category, and the others keep theirs.
  split at found
  · cases found
    rfl
  · exact categories ref record found

/-- Every public call keeps the categories. -/
theorem WILContext.Categories.call {ctx : WILContext} (categories : ctx.Categories)
    (call : WILCall) : (call.run ctx).Categories := by
  -- A builder creates a node under its category, and then only adds inputs.
  have build : ∀ (kind : WILNodeKind) (type : WILType) (name : Option String)
      (payload : WILNodePayload) (inputs : List (Option Nat × WILEdgeKind)),
      (wilBuild ctx kind type name payload inputs).1.Categories := by
    intro kind type name payload inputs
    exact (sameNodes_addInputs _ inputs _).categories (categories.create kind type name payload)
  -- The other calls build no node, or build one by a builder of its category.
  cases call with
  | makeConstInt | makeConstFloat | makeConstBool | makeUndef | makeParam | makeStart =>
    exact categories.create _ _ _ _
  | addInput node input edgeKind => exact (sameNodes_addInput ..).categories categories
  | replaceInput node index newInput => exact (sameNodes_replaceInput ..).categories categories
  | removeInput node index => exact (sameNodes_removeInput ..).categories categories
  | replaceAllUses oldNode newNode => exact (sameNodes_replaceAllUses ..).categories categories
  | remove node => exact (sameNodes_remove ..).categories categories
  | _ => exact build _ _ _ _ _

/-- Every sequence of public calls keeps the categories. -/
theorem WILContext.Categories.calls {ctx : WILContext} (categories : ctx.Categories)
    (calls : List WILCall) : (runCalls ctx calls).Categories := by
  induction calls generalizing ctx with
  | nil => exact categories
  | cons call rest next => exact next (categories.call call)

/-- An empty context has no nodes. -/
theorem categories_empty (self : Nat) : (empty self).Categories := by
  intro ref record found
  simp [empty] at found

/-- The places where a pattern names what it meets, in the order of matching. -/
abbrev Occurrences := List (String × Option Nat)

section Shape

variable (ctx : WILContext)

mutual

/-- The pattern has the shape of the term below a pointer and names these subterms of it. -/
def Fits : WILPattern → Option Nat → Occurrences → Prop
  | .null, _, _ | .var none, _, _ | .sequence none _, _, _ => False
  | .wildcard, _, met => met = []
  | .var (some name), node, met | .sequence (some name) _, node, met => met = [(name, node)]
  | .constInt value, node, met => met = [] ∧ ∃ record, ctx.deref node = some record ∧
      record.kind = .constInt ∧ record.constInt = value
  | .constFloat value, node, met => met = [] ∧ ∃ record, ctx.deref node = some record ∧
      record.kind = .constFloat ∧ record.constFloat.equal value = true
  | .constBool value, node, met => met = [] ∧ ∃ record, ctx.deref node = some record ∧
      record.kind = .constBool ∧ record.constBool = value
  | .predicate test, node, met => met = [] ∧ ∃ holds, test = some holds ∧ holds ctx node = true
  | .refinement base, node, met => Fits base node met
  | .node kind inputs, node, met => ∃ ref record, node = some ref ∧
      ctx.graph[ref]? = some record ∧ record.kind = kind ∧ FitsAll inputs (ctx.targets ref) met

/-- The patterns have the shapes of the terms below the pointers, one for one. -/
def FitsAll : List WILPattern → List (Option Nat) → Occurrences → Prop
  | [], [], met => met = []
  | pattern :: patterns, node :: nodes, met => ∃ first rest, met = first ++ rest ∧
      Fits pattern node first ∧ FitsAll patterns nodes rest
  | _, _, _ => False

end

/-- Patterns that fit are as many as the nodes. -/
theorem FitsAll.length {patterns : List WILPattern} {nodes : List (Option Nat)}
    {met : Occurrences} (fits : FitsAll ctx patterns nodes met) :
    nodes.length = patterns.length := by
  induction patterns generalizing nodes met with
  | nil =>
    cases nodes with
    | nil => rfl
    | cons => exact fits.elim
  | cons pattern patterns ih =>
    cases nodes with
    | nil => exact fits.elim
    | cons node nodes =>
      -- The first pattern fits one node, and the others the rest.
      obtain ⟨first, rest, -, -, later⟩ := fits
      rw [List.length_cons, List.length_cons, ih later]

end Shape

section Match

variable (equivalent : WILContext → Option Nat → Option Nat → Bool) (ctx : WILContext)

/-- An assignment takes each name to the first subterm it names, and the later ones are equivalent
to that one. -/
structure Assigns (assign : String → Option (Option Nat)) (met : Occurrences) : Prop where
  first : ∀ name, assign name = met.lookup name
  again : ∀ before name node after, met = before ++ (name, node) :: after →
    ∀ known, before.lookup name = some known → equivalent ctx known node = true

/-- The assignment makes the pattern equal to the term below the pointer. -/
def InstanceOf (assign : String → Option (Option Nat)) (pattern : WILPattern) (node : Option Nat) :
    Prop :=
  ∃ met, Fits ctx pattern node met ∧ Assigns equivalent ctx assign met

/-- Bind the occurrences from the first to the last. -/
def bindAll (subst : WILSubstitution) (met : Occurrences) : Option WILSubstitution :=
  met.foldlM (fun subst entry =>
    wrsSubstitutionBind equivalent ctx subst (some entry.1) entry.2) subst

variable {equivalent ctx}

/-- Binding two stretches of occurrences is binding one after the other. -/
theorem bindAll_append (subst : WILSubstitution) (first rest : Occurrences) :
    bindAll equivalent ctx subst (first ++ rest) =
      (bindAll equivalent ctx subst first).bind (bindAll equivalent ctx · rest) :=
  List.foldlM_append

/-- A constant pattern accepts a node whose kind and value it names, for the category of the node
agrees with its kind. -/
theorem matchConstantAt_iff (categories : ctx.Categories) {subst extended : WILSubstitution}
    {pattern : WILPattern} {node : Option Nat} {accepts : WILNode → Bool}
    (test : ∀ record, wrsMatchConstant pattern record = (record.isConst && accepts record))
    (constant : ∀ record, accepts record = true → wilNodeKindCategory record.kind = .constant) :
    wrsMatchPattern.matchConstantAt ctx subst pattern node = some extended ↔
      (∃ record, ctx.deref node = some record ∧ accepts record = true) ∧ subst = extended := by
  rw [wrsMatchPattern.matchConstantAt, Option.ite_none_right_eq_some, Option.some.injEq]
  refine and_congr_left fun _ => ?_
  -- A null pointer holds no constant.
  cases stored : ctx.deref node with
  | none => simp
  | some record =>
    simp only [Option.elim_some, test, Bool.and_eq_true, Option.some.injEq, exists_eq_left']
    refine and_iff_right_of_imp fun accepted => ?_
    cases node with
    | none => cases stored
    | some ref =>
      have found : ctx.graph[ref]? = some record := stored
      -- The category follows from the kind, which the test looks at as well.
      rw [WILNode.isConst, categories ref record found, constant record accepted]
      rfl

mutual

/-- A match binds the occurrences of a pattern that fits. -/
theorem wrsMatchPattern_iff (categories : ctx.Categories) {extended : WILSubstitution} :
    ∀ {pattern : WILPattern} {node : Option Nat} {subst : WILSubstitution},
      wrsMatchPattern equivalent ctx subst pattern node = some extended ↔
        ∃ met, Fits ctx pattern node met ∧ bindAll equivalent ctx subst met = some extended
  | .null, node, subst => by simp [wrsMatchPattern, Fits]
  | .wildcard, node, subst => by simp [wrsMatchPattern, Fits, bindAll]
  | .var none, node, subst | .sequence none _, node, subst => by
    simp [wrsMatchPattern, wrsSubstitutionBind, Fits]
  | .var (some name), node, subst | .sequence (some name) _, node, subst => by
    simp [wrsMatchPattern, Fits, bindAll]
  -- A constant pattern accepts constants of its kind and value.
  | .constInt value, node, subst => by
    rw [wrsMatchPattern, matchConstantAt_iff categories (fun _ => rfl) ?_]
    · simp [Fits, bindAll, and_assoc]
    · intro record accepted
      rw [beq_iff_eq.mp (Bool.and_eq_true_iff.mp accepted).1]
      rfl
  | .constFloat value, node, subst => by
    rw [wrsMatchPattern, matchConstantAt_iff categories (fun _ => rfl) ?_]
    · simp [Fits, bindAll, and_assoc]
    · intro record accepted
      rw [beq_iff_eq.mp (Bool.and_eq_true_iff.mp accepted).1]
      rfl
  | .constBool value, node, subst => by
    rw [wrsMatchPattern, matchConstantAt_iff categories (fun _ => rfl) ?_]
    · simp [Fits, bindAll, and_assoc]
    · intro record accepted
      rw [beq_iff_eq.mp (Bool.and_eq_true_iff.mp accepted).1]
      rfl
  -- A test accepts the pointer or does not, and binds nothing.
  | .predicate test, node, subst => by
    cases test with
    | none => simp [wrsMatchPattern, Fits]
    | some holds =>
      by_cases accepted : holds ctx node = true <;>
        simp [wrsMatchPattern, Fits, bindAll, accepted]
  | .refinement base, node, subst => by
    simp only [wrsMatchPattern, Fits]
    exact wrsMatchPattern_iff categories
  | .node kind inputs, node, subst => by
    cases node with
    | none => simp [wrsMatchPattern, Fits]
    -- A pointer outside the graph has no kind.
    | some ref =>
      cases stored : ctx.graph[ref]? with
      | none => simp [wrsMatchPattern, Fits, deref, stored]
      | some record =>
        -- An operator matches if its inputs do, for which the counts agree.
        have count : (ctx.targets ref).length = record.inputs.length := by
          rw [targets_of_node stored, WILNode.targets, List.length_map]
        simp only [wrsMatchPattern, Fits, deref, Option.bind_some, stored,
          Option.ite_none_right_eq_some]
        constructor
        · rintro ⟨⟨sameKind, lengths⟩, below⟩
          obtain ⟨met, fits, bound⟩ :=
            (matchInputs_iff categories (count.trans lengths)).mp below
          exact ⟨met, ⟨ref, record, rfl, stored, sameKind, fits⟩, bound⟩
        -- The record is the stored one, and the counts follow from the fit of the inputs.
        · rintro ⟨met, ⟨ref', record', same, found, sameKind, fits⟩, bound⟩
          cases same
          rw [stored] at found
          cases found
          have lengths := fits.length
          refine ⟨⟨sameKind, count.symm.trans lengths⟩, ?_⟩
          exact (matchInputs_iff categories lengths).mpr ⟨met, fits, bound⟩

/-- Matching inputs one after the other binds the occurrences of all of them. -/
theorem matchInputs_iff (categories : ctx.Categories) {extended : WILSubstitution} :
    ∀ {patterns : List WILPattern} {nodes : List (Option Nat)} {subst : WILSubstitution},
      nodes.length = patterns.length →
      (matchInputs equivalent ctx subst patterns nodes = some extended ↔
        ∃ met, FitsAll ctx patterns nodes met ∧
          bindAll equivalent ctx subst met = some extended)
  | [], [], subst, _ => by simp [matchInputs, FitsAll, bindAll]
  | [], _ :: _, _, lengths | _ :: _, [], _, lengths => by simp at lengths
  | pattern :: patterns, node :: nodes, subst, lengths => by
    rw [matchInputs, Option.bind_eq_some_iff]
    constructor
    -- The occurrences of the first pattern come before those of the others.
    · rintro ⟨middle, first, rest⟩
      obtain ⟨met, fits, bound⟩ := (wrsMatchPattern_iff categories).mp first
      obtain ⟨more, fitsRest, boundRest⟩ :=
        (matchInputs_iff categories (Nat.succ.inj lengths)).mp rest
      refine ⟨met ++ more, ⟨met, more, rfl, fits, fitsRest⟩, ?_⟩
      -- The bindings of all occurrences are those of the first ones, and on from there.
      rw [bindAll_append, bound]
      exact boundRest
    · rintro ⟨_, ⟨met, more, rfl, fits, fitsRest⟩, bound⟩
      rw [bindAll_append, Option.bind_eq_some_iff] at bound
      obtain ⟨middle, first, rest⟩ := bound
      exact ⟨middle, (wrsMatchPattern_iff categories).mpr ⟨met, fits, first⟩,
        (matchInputs_iff categories (Nat.succ.inj lengths)).mpr ⟨more, fitsRest, rest⟩⟩

end

/-- One binding fails only at a known name with a node that is not equivalent. -/
theorem bind_eq_some_iff {subst extended : WILSubstitution} {name : String} {node : Option Nat} :
    wrsSubstitutionBind equivalent ctx subst (some name) node = some extended ↔
      (∀ known, subst.lookup name = some known → equivalent ctx known node = true) ∧
        extended = if (subst.lookup name).isSome then subst else subst ++ [(name, node)] := by
  simp only [wrsSubstitutionBind]
  -- A new name is bound at the end, and a known one has to be equivalent.
  cases found : subst.lookup name with
  | none =>
    simp only [Option.some.injEq, reduceCtorEq, false_implies, implies_true, true_and,
      Option.isSome_none, Bool.false_eq_true, if_false]
    exact eq_comm
  | some known =>
    simp only [Option.ite_none_right_eq_some, Option.some.injEq, forall_eq', Option.isSome_some,
      if_true]
    exact and_congr_right fun _ => eq_comm

/-- After a binding the substitution reads like one more occurrence at the end. -/
theorem lookup_bind {subst seen : WILSubstitution}
    (same : ∀ name, subst.lookup name = seen.lookup name) (name : String) (node : Option Nat)
    (other : String) :
    (if (subst.lookup name).isSome then subst else subst ++ [(name, node)]).lookup other =
      (seen ++ [(name, node)]).lookup other := by
  rw [List.lookup_append, ← same other]
  split
  · -- A known name hides the occurrence.
    rename_i known
    obtain ⟨first, found⟩ := Option.isSome_iff_exists.mp known
    by_cases own : other = name
    · rw [own, found, Option.some_or]
    · rw [List.lookup_cons, beq_false_of_ne own]
      simp
  · rw [List.lookup_append]

/-- Binding reads the first occurrence of each name. -/
theorem bindAll_lookup {subst seen extended : WILSubstitution}
    (same : ∀ name, subst.lookup name = seen.lookup name) {met : Occurrences}
    (bound : bindAll equivalent ctx subst met = some extended) (name : String) :
    extended.lookup name = (seen ++ met).lookup name := by
  induction met generalizing subst seen with
  -- Nothing more is bound.
  | nil =>
    obtain rfl : subst = extended := Option.some.inj bound
    rw [List.append_nil, same]
  | cons entry met ih =>
    obtain ⟨middle, first, rest⟩ := Option.bind_eq_some_iff.mp bound
    -- The first entry is seen before the others.
    obtain ⟨-, rfl⟩ := bind_eq_some_iff.mp first
    rw [ih (lookup_bind same entry.1 entry.2) rest, List.append_assoc, List.singleton_append]

/-- Binding succeeds when every later occurrence of a name is equivalent to its first one. -/
theorem bindAll_isSome_iff {subst seen : WILSubstitution}
    (same : ∀ name, subst.lookup name = seen.lookup name) (met : Occurrences) :
    (bindAll equivalent ctx subst met).isSome = true ↔
      ∀ before name node after, met = before ++ (name, node) :: after →
        ∀ known, (seen ++ before).lookup name = some known →
          equivalent ctx known node = true := by
  -- The induction is on the occurrences, of which the first one of a name binds it.
  induction met generalizing subst seen with
  | nil => simp [bindAll]
  | cons entry met ih =>
    obtain ⟨name, node⟩ := entry
    have next := ih (lookup_bind same name node)
    constructor
    · intro success before other target after split known found
      obtain ⟨extended, bound⟩ := Option.isSome_iff_exists.mp success
      obtain ⟨middle, first, rest⟩ := Option.bind_eq_some_iff.mp bound
      -- The first occurrence is bound, and the rest is bound after it.
      obtain ⟨agrees, rfl⟩ := bind_eq_some_iff.mp first
      cases before with
      | nil =>
        obtain ⟨⟨rfl, rfl⟩, rfl⟩ : (name = other ∧ node = target) ∧ met = after := by
          simpa using split
        rw [List.append_nil, ← same] at found
        exact agrees known found
      -- A later occurrence is one of the rest.
      | cons head before =>
        obtain ⟨rfl, rfl⟩ := List.cons.inj split
        refine next.mp (Option.isSome_of_eq_some rest) before other target after rfl known ?_
        rwa [List.append_assoc, List.singleton_append]
    -- The first occurrence agrees with what was known, and the others by the induction.
    · intro agrees
      have first : wrsSubstitutionBind equivalent ctx subst (some name) node = some _ :=
        bind_eq_some_iff.mpr ⟨fun known found => agrees [] name node met rfl known
          (by rw [List.append_nil, ← same, found]), rfl⟩
      have rest := next.mpr fun before other target after split known found =>
        agrees ((name, node) :: before) other target after (by rw [split]; rfl) known
          (by rwa [List.append_assoc, List.singleton_append] at found)
      rw [bindAll, List.foldlM_cons]
      simp only [first]
      exact rest

/-- Binding from nothing succeeds just when the occurrences have an assignment. -/
theorem bindAll_assigns {met : Occurrences} :
    (bindAll equivalent ctx [] met).isSome = true ↔
      ∃ assign, Assigns equivalent ctx assign met := by
  rw [bindAll_isSome_iff (fun _ => rfl)]
  constructor
  · exact fun again => ⟨fun name => met.lookup name, fun _ => rfl, again⟩
  -- An assignment agrees with itself at every later occurrence.
  · exact fun ⟨_, assigns⟩ => assigns.again

mutual

/-- A pattern meets the same subterms however its shape is checked. -/
theorem Fits.unique : ∀ {pattern : WILPattern} {node : Option Nat} {met met' : Occurrences},
    Fits ctx pattern node met → Fits ctx pattern node met' → met = met'
  | .wildcard, _, _, _, left, right
  | .var (some _), _, _, _, left, right | .sequence (some _) _, _, _, _, left, right =>
    Eq.trans left (Eq.symm right)
  | .constInt _, _, _, _, left, right | .constFloat _, _, _, _, left, right
  | .constBool _, _, _, _, left, right | .predicate _, _, _, _, left, right =>
    left.1.trans right.1.symm
  | .refinement base, node, met, met', left, right => by
    -- The base meets what it meets, and so do the inputs.
    rw [Fits] at left right
    exact left.unique right
  | .node kind inputs, node, met, met', left, right => by
    -- Both checks look at the same record.
    obtain ⟨ref, record, rfl, -, -, below⟩ := left
    obtain ⟨ref', record', same, -, -, below'⟩ := right
    cases same
    exact below.unique below'
  | .null, _, _, _, left, _ | .var none, _, _, _, left, _
  | .sequence none _, _, _, _, left, _ => left.elim

/-- The occurrences met along a list of patterns are determined. -/
theorem FitsAll.unique : ∀ {patterns : List WILPattern} {nodes : List (Option Nat)}
    {met met' : Occurrences},
    FitsAll ctx patterns nodes met → FitsAll ctx patterns nodes met' → met = met'
  | [], [], _, _, left, right => Eq.trans left (Eq.symm right)
  | _ :: _, _ :: _, _, _, left, right => by
    obtain ⟨first, rest, rfl, fits, fitsRest⟩ := left
    obtain ⟨first', rest', rfl, fits', fitsRest'⟩ := right
    rw [fits.unique fits', fitsRest.unique fitsRest']
  | [], _ :: _, _, _, left, _ | _ :: _, [], _, _, left, _ => left.elim

end

end Match

section Rebuild

variable (equivalent : WILContext → Option Nat → Option Nat → Bool) (before after : WILContext)

/-- A pointer of the later graph has the same term as a pointer of the earlier one, up to
equivalent nodes of the earlier graph and the types of constants. -/
inductive Alike : Option Nat → Option Nat → Prop
  | same (pointer : Option Nat) : Alike pointer pointer
  | related {first pointer : Option Nat} (agree : equivalent before first pointer = true) :
      Alike first pointer
  | constInt {new old : Nat} {record stored : WILNode}
      (built : after.graph[new]? = some record) (found : before.graph[old]? = some stored)
      (kinds : record.kind = .constInt ∧ stored.kind = .constInt)
      (value : record.constInt = stored.constInt) : Alike (some new) (some old)
  | constBool {new old : Nat} {record stored : WILNode}
      (built : after.graph[new]? = some record) (found : before.graph[old]? = some stored)
      (kinds : record.kind = .constBool ∧ stored.kind = .constBool)
      (value : record.constBool = stored.constBool) : Alike (some new) (some old)
  | operator {new old : Nat} {record stored : WILNode}
      (built : after.graph[new]? = some record) (found : before.graph[old]? = some stored)
      (kinds : record.kind = stored.kind)
      (inputs : List.Forall₂ Alike (after.targets new) (before.targets old)) :
      Alike (some new) (some old)

variable {equivalent before}
variable {base : Nat} {allowed : Option Nat → Prop} {subst : WILSubstitution}

/-- The core of a built node stays in every later graph. -/
theorem Built.core_of_build {ctx later : WILContext} {kind : WILNodeKind} {type : WILType}
    {payload : WILNodePayload} {inputs : List (Option Nat × WILEdgeKind)}
    (built : Built base allowed (wilBuild ctx kind type none payload inputs).1 later) :
    (∃ record, later.graph[ctx.graph.length]? = some record ∧ record.kind = kind ∧
      record.payload = payload) ∧
      later.targets ctx.graph.length = inputs.map (·.1) := by
  have inside : ctx.graph.length < (wilBuild ctx kind type none payload inputs).1.graph.length := by
    rw [length_build]
    exact Nat.lt_succ_self _
  constructor
  -- The record is that of the builder, up to slots and uses.
  · have core := built.core ctx.graph.length inside
    rw [core_build, if_pos rfl] at core
    obtain ⟨record, found, cores⟩ := Option.map_eq_some_iff.mp core
    have kinds := congrArg WILNode.kind cores
    have payloads := congrArg WILNode.payload cores
    simp only [WILNode.core] at kinds payloads
    exact ⟨record, found, kinds, payloads⟩
  · rw [built.targets _ inside, targets_build, if_pos rfl]

mutual

/-- What is built from a pattern that describes a term has the same term, in every later graph. -/
theorem wrsApplyPattern_alike : ∀ {pattern : WILPattern} {ctx later : WILContext}
    {node : Option Nat}, pattern.simple = true → DefUse ctx → base ≤ ctx.graph.length →
    (∀ name ∈ pattern.vars, allowed (wilSubstitutionLookup subst (some name))) →
    (∀ ref, allowed (some ref) → ref < ctx.graph.length) →
    Covers equivalent before subst pattern node →
    Built base allowed (wrsApplyPattern subst pattern ctx).1 later →
    Alike equivalent before later (wrsApplyPattern subst pattern ctx).2 node
  | .var (some name), ctx, later, node, _, _, _, _, _, covers, _ => by
    -- A name stands for the node that it is bound to.
    obtain ⟨bound, found, agrees⟩ := covers
    have value : (wrsApplyPattern subst (.var (some name)) ctx).2 = bound := by
      simp [wrsApplyPattern, wilSubstitutionLookup, found]
    rw [value]
    rcases agrees with rfl | agree
    · exact .same bound
    · exact .related agree
  | .constInt value, ctx, later, node, _, _, _, _, _, covers, built => by
    -- A constant is built again with its value.
    obtain ⟨stored, found, kind, constant⟩ := covers
    cases node with
    | none => cases found
    | some old =>
      have built : Built base allowed (wilBuild ctx .constInt .i32 none (.int value) []).1 later :=
        built
      obtain ⟨⟨record, place, kinds, payload⟩, -⟩ := built.core_of_build
      refine .constInt place found ⟨kinds, kind⟩ ?_
      rw [constant, WILNode.constInt, kinds, payload]
  | .constBool value, ctx, later, node, _, _, _, _, _, covers, built => by
    obtain ⟨stored, found, kind, constant⟩ := covers
    cases node with
    | none => cases found
    | some old =>
      have built : Built base allowed (wilBuild ctx .constBool .i1 none (.bool value) []).1 later :=
        built
      obtain ⟨⟨record, place, kinds, payload⟩, -⟩ := built.core_of_build
      refine .constBool place found ⟨kinds, kind⟩ ?_
      rw [constant, WILNode.constBool, kinds, payload]
  | .node kind inputs, ctx, later, node, simple, consistent, past, bound, inside, covers,
      built => by
    simp only [WILPattern.simple, Bool.and_eq_true, decide_eq_true_eq] at simple
    -- The operator describes a node whose inputs are described in turn.
    obtain ⟨old, stored, rfl, found, sameKind, below⟩ := covers
    obtain ⟨inner, placed⟩ := wrsApplyPatterns_built simple.2 consistent past bound inside
    obtain ⟨type, slots, sources, result⟩ := wrsApplyPattern_node subst simple.1 ctx
    rw [result] at built ⊢
    -- The node is built over the inputs, which are alike by the lemma about lists.
    have parent := @Built.build base allowed _ inner.consistent kind type none
      .zero slots
      (fun target member => (placed _ (sources ▸ member)).2 target rfl)
      (fun target member => (placed _ (sources ▸ member)).1)
      (fun leaf => by simp [simple.1] at leaf)
    obtain ⟨⟨record, place, kinds, -⟩, targets⟩ := built.core_of_build
    refine .operator place found (kinds.trans sameKind.symm) ?_
    rw [targets, sources]
    exact wrsApplyPatterns_alike simple.2 consistent past bound inside below (parent.trans built)
  | .var none, _, _, _, simple, _, _, _, _, _, _ | .null, _, _, _, simple, _, _, _, _, _, _
  | .constFloat _, _, _, _, simple, _, _, _, _, _, _
  | .wildcard, _, _, _, simple, _, _, _, _, _, _
  | .predicate _, _, _, _, simple, _, _, _, _, _, _
  | .sequence _ _, _, _, _, simple, _, _, _, _, _, _
  | .refinement _, _, _, _, simple, _, _, _, _, _, _ => by simp [WILPattern.simple] at simple

/-- The same for the inputs of an operator, one for one. -/
theorem wrsApplyPatterns_alike : ∀ {patterns : List WILPattern} {ctx later : WILContext}
    {nodes : List (Option Nat)}, WILPattern.simpleList patterns = true → DefUse ctx →
    base ≤ ctx.graph.length →
    (∀ name ∈ WILPattern.varsList patterns, allowed (wilSubstitutionLookup subst (some name))) →
    (∀ ref, allowed (some ref) → ref < ctx.graph.length) →
    CoversList equivalent before subst patterns nodes →
    Built base allowed (wrsApplyPatterns subst patterns ctx).1 later →
    List.Forall₂ (Alike equivalent before later) (wrsApplyPatterns subst patterns ctx).2 nodes
  | [], _, _, [], _, _, _, _, _, _, _ => .nil
  | [], _, _, _ :: _, _, _, _, _, _, covers, _ => covers.elim
  | _ :: _, _, _, [], _, _, _, _, _, covers, _ => covers.elim
  | pattern :: patterns, ctx, later, node :: nodes, simple, consistent, past, bound, inside,
      covers, built => by
    simp only [WILPattern.simpleList, Bool.and_eq_true] at simple
    have headBound := fun name member => bound name (List.mem_append_left _ member)
    have tailBound := fun name member => bound name (List.mem_append_right _ member)
    obtain ⟨first, -⟩ := wrsApplyPattern_built simple.1 consistent past headBound inside
    have tailInside := fun ref member => Nat.lt_of_lt_of_le (inside ref member) first.longer
    have tailPast := Nat.le_trans past first.longer
    obtain ⟨rest, -⟩ :=
      wrsApplyPatterns_built simple.2 first.consistent tailPast tailBound tailInside
    -- The first node stays as it is while the others are built.
    refine .cons ?_ ?_
    · exact wrsApplyPattern_alike simple.1 consistent past headBound inside covers.1
        (rest.trans built)
    · exact wrsApplyPatterns_alike simple.2 first.consistent tailPast tailBound tailInside
        covers.2 built

end

/-- Building from a match of a pattern gives the matched term again and keeps the graph. -/
theorem wrsMatchPattern_rebuilds {ctx : WILContext} (consistent : DefUse ctx)
    {pattern : WILPattern} (simple : pattern.simple = true) {node : Option Nat}
    (inside : Inside ctx node)
    (found : wrsMatchPattern equivalent ctx [] pattern node = some subst) :
    (∀ old < ctx.graph.length,
      ((wrsApplyPattern subst pattern ctx).1.graph[old]?).map WILNode.core =
          (ctx.graph[old]?).map WILNode.core ∧
        (wrsApplyPattern subst pattern ctx).1.targets old = ctx.targets old) ∧
      Alike equivalent ctx (wrsApplyPattern subst pattern ctx).1
        (wrsApplyPattern subst pattern ctx).2 node := by
  obtain ⟨⟨⟨more, split, entries⟩, -⟩, covers⟩ := wrsMatchPattern_spec simple found
  -- What is bound lies below the node, so it is null or in the graph.
  have bound : ∀ name ∈ pattern.vars,
      Inside ctx (wilSubstitutionLookup subst (some name)) := by
    intro name _ ref read
    obtain ⟨pointer, known, same⟩ : ∃ pointer, subst.lookup name = some pointer ∧
        pointer = some ref := by
      cases known : subst.lookup name with
      | none => simp [wilSubstitutionLookup, known] at read
      | some pointer => exact ⟨pointer, rfl, by simpa [wilSubstitutionLookup, known] using read⟩
    obtain ⟨front, back, rfl, -⟩ := List.lookup_eq_some_iff.mp known
    -- What was found is one of the bindings of the match.
    have member : (name, pointer) ∈ more := by
      rw [List.nil_append] at split
      rw [← split]
      simp
    have below := entries (name, pointer) member
    rw [same] at below
    -- A binding is the matched node itself or the input of some node.
    rcases Relation.ReflTransGen.cases_tail below with start | ⟨user, -, edge⟩
    · exact inside ref start.symm
    · cases user with
      | none => cases edge
      | some user => exact consistent.closed user ref edge
  -- Nothing of the old graph has changed, and the term is the same.
  obtain ⟨built, -⟩ := wrsApplyPattern_built simple consistent (Nat.zero_le _) bound
    fun ref place => place ref rfl
  refine ⟨fun old place => ⟨built.core old place, built.targets old place⟩, ?_⟩
  exact wrsApplyPattern_alike simple consistent (Nat.zero_le _) bound
    (fun ref place => place ref rfl) covers (.refl built.consistent)

end Rebuild

/-- A match succeeds just when some assignment makes the pattern equal to the term, the bindings
are that one assignment with no name bound twice, and building a pattern of variables, constants
and operators from them gives the term again, up to equivalent nodes and the types of constants. -/
theorem wilPatternMatch_iff_instance
    (equivalent : WILContext → Option Nat → Option Nat → Bool) {ctx : WILContext}
    (consistent : DefUse ctx) (categories : ctx.Categories) (pattern : WILPattern)
    {node : Option Nat} (inside : Inside ctx node) :
    ((wilPatternMatch equivalent ctx pattern node).isSome = true ↔
      ∃ assign, InstanceOf equivalent ctx assign pattern node) ∧
    ∀ found, wilPatternMatch equivalent ctx pattern node = some found →
      found.node = node ∧ (found.substitution.map (·.1)).Nodup ∧
      (∀ assign, InstanceOf equivalent ctx assign pattern node ↔
        ∀ name, assign name = found.substitution.lookup name) ∧
      (pattern.simple = true → ∀ built result,
        wilSubstitutionApply ctx found.substitution pattern = (built, result) →
        (∀ old < ctx.graph.length,
          (built.graph[old]?).map WILNode.core = (ctx.graph[old]?).map WILNode.core ∧
            built.targets old = ctx.targets old) ∧
          Alike equivalent ctx built result node) := by
  constructor
  · -- A match binds what it meets, and an assignment is what agrees with all of that.
    rw [wilPatternMatch, Option.isSome_map, Option.isSome_iff_exists]
    constructor
    · rintro ⟨extended, matched⟩
      obtain ⟨met, fits, bound⟩ := (wrsMatchPattern_iff categories).mp matched
      obtain ⟨assign, assigns⟩ := bindAll_assigns.mp (Option.isSome_of_eq_some bound)
      exact ⟨assign, met, fits, assigns⟩
    · rintro ⟨assign, met, fits, assigns⟩
      obtain ⟨extended, bound⟩ :=
        Option.isSome_iff_exists.mp (bindAll_assigns.mpr ⟨assign, assigns⟩)
      exact ⟨extended, (wrsMatchPattern_iff categories).mpr ⟨met, fits, bound⟩⟩
  · -- The first occurrence of a name decides its binding, in the match and in the assignment.
    intro found succeeded
    obtain ⟨subst, matched, rfl⟩ := Option.map_eq_some_iff.mp succeeded
    -- The match binds the occurrences of a pattern that fits.
    obtain ⟨met, fits, bound⟩ := (wrsMatchPattern_iff categories).mp matched
    have lookup := bindAll_lookup (fun _ => rfl) bound
    refine ⟨rfl, ?_, fun assign => ?_, fun simple built result applied => ?_⟩
    · rw [wrsMatchPattern_keys matched]
      exact nodup_bindNames List.nodup_nil
    -- An assignment that makes the pattern equal to the term gives each name its first node.
    · constructor
      · rintro ⟨met', fits', assigns⟩ name
        rw [assigns.first, fits'.unique fits, lookup, List.nil_append]
      · intro agree
        obtain ⟨_, assigns⟩ := bindAll_assigns.mp (Option.isSome_of_eq_some bound)
        refine ⟨met, fits, fun name => ?_, assigns.again⟩
        rw [agree, lookup, List.nil_append]
    -- Building gives the matched term again.
    · have rebuilt := wrsMatchPattern_rebuilds consistent simple inside matched
      have result_ : wrsApplyPattern subst pattern ctx = (built, result) := applied
      rw [result_] at rebuilt
      exact rebuilt

/-- A parameter added to itself. -/
def doubledParam : WILContext :=
  runCalls (empty 7) [.makeParam 0 .i32 none, .makeBinary .add (some 0) (some 0)]

/-- Matching the sum of a variable with itself binds the variable once and gives the sum back. -/
theorem wilPatternMatch_iff_instance_doubled :
    ∃ found, wilPatternMatch (fun _ left right => left == right) doubledParam
        (.node .add [wilPatVar "x", wilPatVar "x"]) (some 1) = some found ∧
      (found.substitution.map (·.1)).Nodup ∧
      ∃ built result, Alike (fun _ left right => left == right) doubledParam built result
        (some 1) := by
  have matched := wilPatternMatch_iff_instance (fun _ left right => left == right)
    ((defUse_empty 7).calls [.makeParam 0 .i32 none, .makeBinary .add (some 0) (some 0)]
      (by decide))
    ((categories_empty 7).calls _) (.node .add [wilPatVar "x", wilPatVar "x"])
    -- The sum is a node of the graph.
    (show Inside doubledParam (some 1) by
      intro ref same
      cases same
      decide)
  refine ⟨_, rfl, (matched.2 _ rfl).2.1, _, _, ((matched.2 _ rfl).2.2.2 (by decide) _ _ rfl).2⟩

end Wirble
