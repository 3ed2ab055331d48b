import Wirble.Wrs.Acyclic
import Wirble.Wrs.PatternText
import Wirble.Wrs.Validated

/-! Which right-hand sides build operators with all of their inputs. -/

namespace Wirble

open WILContext

namespace WILPattern

mutual

/-- The operators that a pattern builds, in order: how many elements of the array of inputs the
builder reads, and how many the loop in front of it has filled. -/
def inputReads : WILPattern → List (Nat × Nat)
  | node kind inputs => inputReadsList inputs ++ [(kind.arity.getD 0, inputs.length)]
  | refinement base => base.inputReads
  | _ => []

/-- The operators that a list of patterns builds. -/
def inputReadsList : List WILPattern → List (Nat × Nat)
  | [] => []
  | pattern :: rest => pattern.inputReads ++ inputReadsList rest

end

/-- The pattern stands for a node, provided that its name is bound to one. -/
def stands : WILPattern → Bool
  | var name | sequence name _ => name.isSome
  | constInt _ | constFloat _ | constBool _ => true
  | node kind _ => kind.arity.isSome
  | refinement base => base.stands
  | _ => false

mutual

/-- Every operator has as many inputs as its builder reads, and each of these stands for a node. -/
def respectsArity : WILPattern → Bool
  | node kind inputs =>
    respectsArityAll inputs && kind.arity.all fun count =>
      decide (count ≤ inputs.length) && (inputs.take count).all stands
  | refinement base => base.respectsArity
  | _ => true

/-- Every pattern of the list respects the arities. -/
def respectsArityAll : List WILPattern → Bool
  | [] => true
  | pattern :: rest => pattern.respectsArity && respectsArityAll rest

end

mutual

/-- The names that operators read as their inputs. -/
def operandNames : WILPattern → List String
  | node kind inputs =>
    operandNamesAll inputs ++ (inputs.take (kind.arity.getD 0)).filterMap rootName
  | refinement base => base.operandNames
  | _ => []

/-- The names that the operators of a list of patterns read. -/
def operandNamesAll : List WILPattern → List String
  | [] => []
  | pattern :: rest => pattern.operandNames ++ operandNamesAll rest

end

end WILPattern

/-- No node from a position on has a null input. -/
def NoNullFrom (first : Nat) (ctx : WILContext) : Prop :=
  ∀ ref : Nat, first ≤ ref → none ∉ ctx.targets ref

/-- Instantiation reads filled elements of its arrays only, and builds no operator over null. -/
structure Instantiates (subst : WILSubstitution) (pattern : WILPattern) (ctx : WILContext) :
    Prop where
  filled : ∀ build ∈ pattern.inputReads, build.1 ≤ build.2
  present : NoNullFrom ctx.graph.length (wrsApplyPattern subst pattern ctx).1

section Growth

variable (subst : WILSubstitution)

/-- An edit that adds nodes behind the others and leaves the slots of the others alone. -/
structure AddsNodes (before after : WILContext) : Prop where
  longer : before.graph.length ≤ after.graph.length
  kept : ∀ ref : Nat, ref < before.graph.length → after.targets ref = before.targets ref

/-- A graph adds no nodes to itself. -/
theorem AddsNodes.refl (ctx : WILContext) : AddsNodes ctx ctx := ⟨Nat.le_refl _, fun _ _ => rfl⟩

/-- Nodes added twice are nodes added. -/
theorem AddsNodes.trans {first second third : WILContext} (left : AddsNodes first second)
    (right : AddsNodes second third) : AddsNodes first third where
  longer := Nat.le_trans left.longer right.longer
  kept ref inside :=
    (right.kept ref (Nat.lt_of_lt_of_le inside left.longer)).trans (left.kept ref inside)

/-- Building one node adds it behind the others. -/
theorem addsNodes_build (ctx : WILContext) (kind : WILNodeKind) (type : WILType)
    (name : Option String) (payload : WILNodePayload)
    (inputs : List (Option Nat × WILEdgeKind)) :
    AddsNodes ctx (wilBuild ctx kind type name payload inputs).1 := by
  refine ⟨by rw [length_build]; omega, fun ref inside => ?_⟩
  rw [targets_build, if_neg (by omega)]

/-- New nodes of two edits in a row are the new nodes of each. -/
theorem noNullFrom_trans {first second third : WILContext} (left : AddsNodes first second)
    (right : AddsNodes second third) :
    NoNullFrom first.graph.length third ↔
      NoNullFrom first.graph.length second ∧ NoNullFrom second.graph.length third := by
  constructor
  · intro present
    refine ⟨fun ref above => ?_, fun ref above => present ref (Nat.le_trans left.longer above)⟩
    -- A node of the first edit keeps its targets in the second.
    by_cases inside : ref < second.graph.length
    · rw [← right.kept ref inside]
      exact present ref above
    · simp [targets_outside (Nat.not_lt.mp inside)]
  · intro both ref above
    -- The node is one of the first edit or of the second.
    by_cases inside : ref < second.graph.length
    · rw [right.kept ref inside]
      exact both.1 ref above
    · exact both.2 ref (Nat.not_lt.mp inside)

/-- The node that is built has a null input just when one is passed. -/
theorem noNullFrom_build (ctx : WILContext) (kind : WILNodeKind) (type : WILType)
    (name : Option String) (payload : WILNodePayload)
    (inputs : List (Option Nat × WILEdgeKind)) :
    NoNullFrom ctx.graph.length (wilBuild ctx kind type name payload inputs).1 ↔
      none ∉ inputs.map (·.1) := by
  constructor
  · intro present
    -- The fresh node has the inputs that were passed.
    have fresh := present ctx.graph.length (Nat.le_refl _)
    rwa [targets_build, if_pos rfl] at fresh
  · intro absent ref above
    rw [targets_build]
    -- No other node is new.
    split
    · exact absent
    · rw [targets_outside above]
      simp

mutual

/-- Instantiation adds nodes behind the others. -/
theorem wrsApplyPattern_addsNodes : ∀ (pattern : WILPattern) (ctx : WILContext),
    AddsNodes ctx (wrsApplyPattern subst pattern ctx).1
  | .var _, ctx | .sequence _ _, ctx | .null, ctx | .wildcard, ctx | .predicate _, ctx => by
    -- Patterns without a node of their own add nothing.
    rw [wrsApplyPattern]
    exact .refl ctx
  | .constInt value, ctx => addsNodes_build ctx .constInt .i32 none (.int value) []
  | .constFloat value, ctx => addsNodes_build ctx .constFloat .f64 none (.float value) []
  | .constBool value, ctx => addsNodes_build ctx .constBool .i1 none (.bool value) []
  | .refinement base, ctx => by
    rw [wrsApplyPattern]
    exact wrsApplyPattern_addsNodes base ctx
  | .node kind inputs, ctx => by
    have inner := wrsApplyPatterns_addsNodes inputs ctx
    -- Kinds without operands add only what their inputs add.
    cases arity : kind.arity with
    | none =>
      simp only [wrsApplyPattern, arity]
      exact inner
    | some count =>
      obtain ⟨type, slots, -, result⟩ := wrsApplyPattern_operator subst arity inputs ctx
      rw [result]
      exact inner.trans (addsNodes_build _ kind type none .zero slots)

/-- Building any list of patterns adds nodes. -/
theorem wrsApplyPatterns_addsNodes : ∀ (patterns : List WILPattern) (ctx : WILContext),
    AddsNodes ctx (wrsApplyPatterns subst patterns ctx).1
  | [], ctx => .refl ctx
  | pattern :: rest, ctx =>
    (wrsApplyPattern_addsNodes pattern ctx).trans (wrsApplyPatterns_addsNodes rest _)

end

end Growth

section Results

variable (subst : WILSubstitution)

/-- The pattern is instantiated to a node and not to null. -/
def WILPattern.Stood (pattern : WILPattern) : Prop :=
  pattern.stands = true ∧
    ∀ name, pattern.rootName = some name → wilSubstitutionLookup subst (some name) ≠ none

/-- Whether a pattern gives a node depends on its root and the name there alone. -/
theorem wrsApplyPattern_stood : ∀ (pattern : WILPattern) (ctx : WILContext),
    (wrsApplyPattern subst pattern ctx).2 ≠ none ↔ pattern.Stood subst
  | .var name, ctx | .sequence name _, ctx => by
    rw [wrsApplyPattern]
    -- A name stands for a node when it is bound to one.
    cases name <;> simp [WILPattern.Stood, WILPattern.stands, WILPattern.rootName,
      wilSubstitutionLookup]
  | .constInt _, _ | .constFloat _, _ | .constBool _, _ => by
    simp [wrsApplyPattern, WILPattern.Stood, WILPattern.stands, WILPattern.rootName]
  | .null, _ | .wildcard, _ | .predicate _, _ => by
    simp [wrsApplyPattern, WILPattern.Stood, WILPattern.stands]
  | .refinement base, ctx => by
    rw [wrsApplyPattern]
    exact wrsApplyPattern_stood base ctx
  | .node kind inputs, ctx => by
    cases arity : kind.arity with
    | none => simp [wrsApplyPattern, arity, WILPattern.Stood, WILPattern.stands]
    | some count =>
      -- A builder returns the node that it has created.
      obtain ⟨type, slots, -, result⟩ := wrsApplyPattern_operator subst arity inputs ctx
      simp [result, arity, WILPattern.Stood, WILPattern.stands, WILPattern.rootName]

/-- The loop over the inputs fills one element for each, with a node where the input stands. -/
theorem wrsApplyPatterns_getElem? (patterns : List WILPattern) (ctx : WILContext) (index : Nat) :
    (((wrsApplyPatterns subst patterns ctx).2[index]?).join ≠ none ↔
      ∃ pattern, patterns[index]? = some pattern ∧ pattern.Stood subst) := by
  induction patterns generalizing ctx index with
  | nil => simp [wrsApplyPatterns]
  | cons pattern rest ih =>
    rw [wrsApplyPatterns]
    -- The pointer at the front is that of the first pattern.
    cases index with
    | zero =>
      simp only [List.getElem?_cons_zero, Option.join_some, Option.some.injEq, exists_eq_left']
      exact wrsApplyPattern_stood subst pattern ctx
    | succ index =>
      simp only [List.getElem?_cons_succ]
      exact ih _ index

/-- The elements that a builder reads are nodes just when the patterns in front stand for some. -/
theorem reads_present_iff (patterns : List WILPattern) (ctx : WILContext) (count : Nat) :
    (count ≤ patterns.length ∧ none ∉ (List.range count).map
        (fun index => ((wrsApplyPatterns subst patterns ctx).2[index]?).join)) ↔
      count ≤ patterns.length ∧ ∀ pattern ∈ patterns.take count, pattern.Stood subst := by
  refine and_congr_right fun enough => ?_
  constructor
  · intro absent pattern member
    obtain ⟨index, read⟩ := List.mem_iff_getElem?.mp member
    rw [List.getElem?_take] at read
    split at read
    · rename_i below
      -- The element at the pattern's position is read, and it is not null.
      have filled : ((wrsApplyPatterns subst patterns ctx).2[index]?).join ≠ none := by
        intro null
        exact absent (List.mem_map.mpr ⟨index, List.mem_range.mpr below, null⟩)
      obtain ⟨other, found, stood⟩ := (wrsApplyPatterns_getElem? subst patterns ctx index).mp filled
      obtain rfl := Option.some.inj (read.symm.trans found)
      exact stood
    · cases read
  -- A null element would belong to a pattern that stands for no node.
  · intro standing member
    obtain ⟨index, below, null⟩ := List.mem_map.mp member
    have inside : index < patterns.length :=
      Nat.lt_of_lt_of_le (List.mem_range.mp below) enough
    have stood := standing patterns[index] (List.mem_iff_getElem?.mpr ⟨index, by
      rw [List.getElem?_take, if_pos (List.mem_range.mp below), List.getElem?_eq_getElem inside]⟩)
    exact (wrsApplyPatterns_getElem? subst patterns ctx index).mpr
      ⟨_, List.getElem?_eq_getElem inside, stood⟩ null

/-- Standing patterns are those of the right form whose names are bound to nodes. -/
theorem all_stood_iff (patterns : List WILPattern) :
    (∀ pattern ∈ patterns, pattern.Stood subst) ↔
      patterns.all WILPattern.stands = true ∧
        ∀ name ∈ patterns.filterMap WILPattern.rootName,
          wilSubstitutionLookup subst (some name) ≠ none := by
  simp only [WILPattern.Stood, List.all_eq_true, List.mem_filterMap]
  constructor
  -- What is asked of every operand is asked of their names all together.
  · intro standing
    refine ⟨fun pattern member => (standing pattern member).1, fun name named => ?_⟩
    obtain ⟨pattern, member, root⟩ := named
    exact (standing pattern member).2 name root
  · intro both pattern member
    exact ⟨both.1 pattern member, fun name root => both.2 name ⟨pattern, member, root⟩⟩

end Results

section Main

variable (subst : WILSubstitution)

/-- Without new nodes there is no null input. -/
theorem noNullFrom_refl (ctx : WILContext) : NoNullFrom ctx.graph.length ctx := by
  intro ref above
  rw [targets_outside above]
  simp

/-- A constant has no inputs. -/
theorem noNullFrom_constant (ctx : WILContext) (kind : WILNodeKind) (type : WILType)
    (payload : WILNodePayload) :
    NoNullFrom ctx.graph.length (wilBuild ctx kind type none payload []).1 :=
  (noNullFrom_build ctx kind type none payload []).mpr (by simp)

mutual

/-- Instantiation is sound just when the pattern respects the arities and the names that its
operators read are bound to nodes. -/
theorem wrsApplyPattern_sound_iff : ∀ (pattern : WILPattern) (ctx : WILContext),
    ((∀ build ∈ pattern.inputReads, build.1 ≤ build.2) ∧
        NoNullFrom ctx.graph.length (wrsApplyPattern subst pattern ctx).1) ↔
      pattern.respectsArity = true ∧
        ∀ name ∈ pattern.operandNames, wilSubstitutionLookup subst (some name) ≠ none
  | .var _, ctx | .sequence _ _, ctx | .null, ctx | .wildcard, ctx | .predicate _, ctx => by
    rw [wrsApplyPattern]
    exact iff_of_true ⟨by simp [WILPattern.inputReads], noNullFrom_refl ctx⟩
      ⟨rfl, by simp [WILPattern.operandNames]⟩
  -- A constant is built without inputs.
  | .constInt value, ctx =>
    iff_of_true ⟨by simp [WILPattern.inputReads], noNullFrom_constant ctx _ _ (.int value)⟩
      ⟨rfl, by simp [WILPattern.operandNames]⟩
  | .constFloat value, ctx =>
    iff_of_true ⟨by simp [WILPattern.inputReads], noNullFrom_constant ctx _ _ (.float value)⟩
      ⟨rfl, by simp [WILPattern.operandNames]⟩
  | .constBool value, ctx =>
    iff_of_true ⟨by simp [WILPattern.inputReads], noNullFrom_constant ctx _ _ (.bool value)⟩
      ⟨rfl, by simp [WILPattern.operandNames]⟩
  | .refinement base, ctx => by
    rw [wrsApplyPattern]
    exact wrsApplyPattern_sound_iff base ctx
  | .node kind inputs, ctx => by
    -- An operator is sound when its inputs are.
    have inner := wrsApplyPatterns_sound_iff inputs ctx
    simp only [WILPattern.inputReads, WILPattern.respectsArity, WILPattern.operandNames,
      List.forall_mem_append, List.forall_mem_singleton, Bool.and_eq_true]
    cases arity : kind.arity with
    | none =>
      -- The inputs are instantiated, and no builder reads them.
      simp only [wrsApplyPattern, arity, Option.getD_none, Nat.zero_le, and_true, Option.all_none,
        List.take_zero, List.filterMap_nil, List.not_mem_nil, false_implies, implies_true]
      exact inner
    | some count =>
      obtain ⟨type, slots, sources, result⟩ := wrsApplyPattern_operator subst arity inputs ctx
      have grown := wrsApplyPatterns_addsNodes subst inputs ctx
      have reads := reads_present_iff subst inputs ctx count
      rw [all_stood_iff] at reads
      rw [result]
      simp only [Option.getD_some, Option.all_some, Bool.and_eq_true, decide_eq_true_eq]
      rw [noNullFrom_trans grown (addsNodes_build _ kind type none .zero slots), noNullFrom_build,
        sources]
      -- Both sides speak of the inputs first and of the operator over them then.
      constructor
      · intro sound
        obtain ⟨⟨innerReads, enough⟩, innerPresent, absent⟩ := sound
        obtain ⟨respected, bound⟩ := inner.mp ⟨innerReads, innerPresent⟩
        obtain ⟨-, standing, named⟩ := reads.mp ⟨enough, absent⟩
        exact ⟨⟨respected, enough, standing⟩, bound, named⟩
      · intro holds
        obtain ⟨⟨respected, enough, standing⟩, bound, named⟩ := holds
        obtain ⟨innerReads, innerPresent⟩ := inner.mpr ⟨respected, bound⟩
        obtain ⟨-, absent⟩ := reads.mpr ⟨enough, standing, named⟩
        exact ⟨⟨innerReads, enough⟩, innerPresent, absent⟩

/-- Building a list of patterns reads no slot past the given ones just when the patterns respect the
arities. -/
theorem wrsApplyPatterns_sound_iff : ∀ (patterns : List WILPattern) (ctx : WILContext),
    ((∀ build ∈ WILPattern.inputReadsList patterns, build.1 ≤ build.2) ∧
        NoNullFrom ctx.graph.length (wrsApplyPatterns subst patterns ctx).1) ↔
      WILPattern.respectsArityAll patterns = true ∧
        ∀ name ∈ WILPattern.operandNamesAll patterns,
          wilSubstitutionLookup subst (some name) ≠ none
  | [], ctx =>
    iff_of_true ⟨by simp [WILPattern.inputReadsList], noNullFrom_refl ctx⟩
      ⟨rfl, by simp [WILPattern.operandNamesAll]⟩
  | pattern :: rest, ctx => by
    have first := wrsApplyPattern_sound_iff pattern ctx
    have others := wrsApplyPatterns_sound_iff rest (wrsApplyPattern subst pattern ctx).1
    simp only [WILPattern.inputReadsList, WILPattern.respectsArityAll,
      WILPattern.operandNamesAll, List.forall_mem_append, Bool.and_eq_true, wrsApplyPatterns]
    rw [noNullFrom_trans (wrsApplyPattern_addsNodes subst pattern ctx)
      (wrsApplyPatterns_addsNodes subst rest _)]
    -- Reads and null inputs are split between the first pattern and the others.
    constructor
    · intro sound
      obtain ⟨⟨firstReads, restReads⟩, firstPresent, restPresent⟩ := sound
      obtain ⟨firstRespected, firstBound⟩ := first.mp ⟨firstReads, firstPresent⟩
      obtain ⟨restRespected, restBound⟩ := others.mp ⟨restReads, restPresent⟩
      exact ⟨⟨firstRespected, restRespected⟩, firstBound, restBound⟩
    · intro holds
      obtain ⟨⟨firstRespected, restRespected⟩, firstBound, restBound⟩ := holds
      obtain ⟨firstReads, firstPresent⟩ := first.mpr ⟨firstRespected, firstBound⟩
      obtain ⟨restReads, restPresent⟩ := others.mpr ⟨restRespected, restBound⟩
      exact ⟨⟨firstReads, restReads⟩, firstPresent, restPresent⟩

end

end Main

/-- The names of an input are names of the list of inputs. -/
theorem mem_varsList {patterns : List WILPattern} {pattern : WILPattern} {name : String}
    (place : pattern ∈ patterns) (member : name ∈ pattern.vars) :
    name ∈ WILPattern.varsList patterns := by
  induction patterns with
  | nil => cases place
  | cons first rest ih =>
    rw [WILPattern.varsList]
    -- The input is the first pattern or one of the others.
    rcases List.mem_cons.mp place with rfl | later
    · exact List.mem_append_left _ member
    · exact List.mem_append_right _ (ih later)

/-- The name at the root of a pattern is one of its names. -/
theorem WILPattern.rootName_mem_vars : ∀ {pattern : WILPattern} {name : String},
    pattern.rootName = some name → name ∈ pattern.vars
  | .var _, _, root | .sequence _ _, _, root => by
    obtain rfl := root
    simp [WILPattern.vars]
  | .refinement base, _, root => by
    rw [WILPattern.vars]
    exact base.rootName_mem_vars root

mutual

/-- Operators read names of the pattern. -/
theorem WILPattern.operandNames_subset : ∀ (pattern : WILPattern) {name : String},
    name ∈ pattern.operandNames → name ∈ pattern.vars
  | .refinement base, _, member => by
    -- The operators are inside the base, or among the inputs, or the node itself.
    rw [WILPattern.vars]
    exact base.operandNames_subset member
  | .node kind inputs, name, member => by
    rw [WILPattern.vars]
    rcases List.mem_append.mp member with inner | read
    · exact operandNamesAll_subset inputs inner
    · obtain ⟨pattern, place, root⟩ := List.mem_filterMap.mp read
      exact mem_varsList (List.mem_of_mem_take place) (WILPattern.rootName_mem_vars root)

/-- A name that is an operand in a list of patterns is a name of the list. -/
theorem operandNamesAll_subset : ∀ (patterns : List WILPattern) {name : String},
    name ∈ WILPattern.operandNamesAll patterns → name ∈ WILPattern.varsList patterns
  | pattern :: rest, name, member => by
    rcases List.mem_append.mp member with first | later
    · exact List.mem_append_left _ (pattern.operandNames_subset first)
    · exact List.mem_append_right _ (operandNamesAll_subset rest later)

end

/--
Right after a match of an accepted rule, its right-hand side is instantiated without reading
past an array of inputs and without an operator over null, exactly under two conditions.
The pattern respects the arities, and the names that its operators read are bound to nodes,
which they are unless an input below the matched node is null.
-/
theorem wrsApplyPattern_instantiates_iff
    (equivalent : WILContext → Option Nat → Option Nat → Bool) (ctx : WILContext)
    {rule : WILRewriteRule} (accepted : wilRuleValidate rule = true) {node : Nat}
    {found : WILMatch}
    (matched : wilPatternMatch equivalent ctx rule.lhs (some node) = some found) :
    (Instantiates found.substitution rule.rhs ctx ↔
      rule.rhs.respectsArity = true ∧ ∀ name ∈ rule.rhs.operandNames,
        wilSubstitutionLookup found.substitution (some name) ≠ none) ∧
    (InputsPresent ctx node →
      (Instantiates found.substitution rule.rhs ctx ↔ rule.rhs.respectsArity = true)) := by
  have whole : Instantiates found.substitution rule.rhs ctx ↔
      rule.rhs.respectsArity = true ∧ ∀ name ∈ rule.rhs.operandNames,
        wilSubstitutionLookup found.substitution (some name) ≠ none := by
    rw [← wrsApplyPattern_sound_iff found.substitution rule.rhs ctx]
    exact ⟨fun sound => ⟨sound.filled, sound.present⟩, fun both => ⟨both.1, both.2⟩⟩
  refine ⟨whole, fun present => whole.trans ⟨fun both => both.1, fun respected => ?_⟩⟩
  refine ⟨respected, fun name member => ?_⟩
  -- A match of an accepted rule binds every name of the right-hand side to a node.
  obtain ⟨target, bound⟩ := wilRuleValidate_lookup accepted present matched name
    (rule.rhs.operandNames_subset member)
  rw [bound]
  exact Option.some_ne_none target

/-- The rule that the loader builds from the two trees of a form. -/
def loadedRule (match_ replace : Sexp) : WILRewriteRule :=
  wilRuleCreateSimple "rule" (wrsPatternFromSexpNode match_) (wrsPatternFromSexpNode replace)

/-- The tree of a negated variable. -/
def negTree : Sexp := .list [.atom "neg".toList, .atom "?x".toList]

/-- A negation that becomes a sum of its operand with itself. -/
theorem wrsApplyPattern_instantiates_double :
    Instantiates [("x", some 0)]
      (loadedRule negTree (.list [.atom "add".toList, .atom "?x".toList, .atom "?x".toList])).rhs
      negatedParam :=
  ((wrsApplyPattern_instantiates_iff (fun _ _ _ => false) negatedParam
    (show wilRuleValidate (loadedRule negTree
      (.list [.atom "add".toList, .atom "?x".toList, .atom "?x".toList])) = true by decide)
    (show wilPatternMatch _ _ _ (some 1) = some ⟨some 1, [("x", some 0)]⟩ by decide)).2
      negatedParam_present).mpr (by decide)

/-- A sum with one operand is accepted, and its builder reads a second one behind the array. -/
theorem wrsApplyPattern_instantiates_short :
    ∃ rule found, rule = loadedRule negTree (.list [.atom "add".toList, .atom "?x".toList]) ∧
      wilRuleValidate rule = true ∧
      wilPatternMatch (fun _ _ _ => false) negatedParam rule.lhs (some 1) = some found ∧
      ¬ Instantiates found.substitution rule.rhs negatedParam := by
  refine ⟨_, ⟨some 1, [("x", some 0)]⟩, rfl, by decide, by decide, ?_⟩
  intro sound
  -- The builder reads element one, which is not there.
  have reads := sound.filled (2, 1) (by decide)
  exact absurd reads (by decide)

end Wirble
