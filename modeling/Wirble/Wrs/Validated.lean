import Wirble.Wrs.Calls
import Wirble.Wrs.Termination

/-! What the validation of a rule guarantees about the names that its right-hand side reads. -/

namespace Wirble

open WILContext

namespace WILPattern

mutual

/-- All names that are written in a pattern, those of element patterns included. -/
def names : WILPattern → List String
  | var name => name.toList
  | sequence name element => name.toList ++ element.names
  | node _ inputs => namesList inputs
  | refinement base => base.names
  | _ => []

/-- All names that are written in a list of patterns. -/
def namesList : List WILPattern → List String
  | [] => []
  | pattern :: rest => pattern.names ++ namesList rest

end

mutual

/-- The names that are written in the element patterns of sequences. -/
def elementNames : WILPattern → List String
  | sequence _ element => element.names
  | node _ inputs => elementNamesList inputs
  | refinement base => base.elementNames
  | _ => []

/-- The names in the element patterns of a list of patterns. -/
def elementNamesList : List WILPattern → List String
  | [] => []
  | pattern :: rest => pattern.elementNames ++ elementNamesList rest

end

mutual

/-- A name that is written in a pattern is one that a match binds, or stands in an element pattern.
-/
theorem mem_names {name : String} : ∀ {pattern : WILPattern},
    name ∈ pattern.names ↔ name ∈ pattern.vars ∨ name ∈ pattern.elementNames
  | .var own => by
    -- A variable is one name, and has no element pattern.
    cases own <;> simp [names, vars, elementNames]
  | .sequence own element => by
    cases own <;> simp [names, vars, elementNames]
  | .node _ inputs => by
    rw [names, vars, elementNames]
    exact mem_namesList
  | .refinement base => by
    rw [names, vars, elementNames]
    exact mem_names
  | .null | .constInt _ | .constFloat _ | .constBool _ | .wildcard | .predicate _ => by
    simp [names, vars, elementNames]

/-- The same for the names of a list of patterns. -/
theorem mem_namesList {name : String} : ∀ {patterns : List WILPattern},
    name ∈ namesList patterns ↔ name ∈ varsList patterns ∨ name ∈ elementNamesList patterns
  | [] => by simp [namesList, varsList, elementNamesList]
  | pattern :: rest => by
    simp only [namesList, varsList, elementNamesList, List.mem_append, @mem_names name pattern,
      @mem_namesList name rest]
    exact or_or_or_comm

end

end WILPattern

section Collect

variable {capacity : Nat} {name : String}

/-- A name joins the collected ones unless it is there already. -/
theorem wrsRuleCollectVars_name {own : Option String} {vars collected : List (Option String)}
    (found : (if own ∈ vars then some vars
      else if vars.length ≥ capacity then none else some (vars ++ [own])) = some collected) :
    some name ∈ collected ↔ some name ∈ vars ∨ own = some name := by
  split at found
  · -- The table is left alone, and the name is in it.
    rename_i present
    cases found
    constructor
    · exact .inl
    · rintro (old | rfl)
      · exact old
      · exact present
  · split at found
    · cases found
    · cases found
      simp [eq_comm]

mutual

/-- The collected names are the earlier ones and those that a match binds. -/
theorem wrsRuleCollectVars_mem : ∀ {pattern : WILPattern} {vars collected : List (Option String)},
    wrsRuleCollectVars capacity pattern vars = some collected →
    (some name ∈ collected ↔ some name ∈ vars ∨ name ∈ pattern.vars)
  | .var own, vars, collected, found | .sequence own _, vars, collected, found => by
    rw [wrsRuleCollectVars] at found
    rw [wrsRuleCollectVars_name found]
    cases own <;> simp [WILPattern.vars, eq_comm]
  | .node _ inputs, vars, collected, found => by
    rw [wrsRuleCollectVars] at found
    simpa only [WILPattern.vars] using collectInputs_mem found
  | .refinement base, vars, collected, found => by
    rw [wrsRuleCollectVars] at found
    have inner := wrsRuleCollectVars_mem found
    simpa only [WILPattern.vars] using inner
  | .null, vars, collected, found | .constInt _, vars, collected, found
  | .constFloat _, vars, collected, found | .constBool _, vars, collected, found
  | .wildcard, vars, collected, found | .predicate _, vars, collected, found => by
    cases found
    simp [WILPattern.vars]

/-- The names of a list of inputs are collected from the first to the last. -/
theorem collectInputs_mem : ∀ {patterns : List WILPattern} {vars collected : List (Option String)},
    collectInputs capacity patterns vars = some collected →
    (some name ∈ collected ↔ some name ∈ vars ∨ name ∈ WILPattern.varsList patterns)
  | [], vars, collected, found => by
    cases found
    simp [WILPattern.varsList]
  | pattern :: patterns, vars, collected, found => by
    rw [collectInputs] at found
    obtain ⟨middle, first, rest⟩ := Option.bind_eq_some_iff.mp found
    rw [collectInputs_mem rest, wrsRuleCollectVars_mem first, WILPattern.varsList,
      List.mem_append, or_assoc]

end

end Collect

/-- An accepted rule reads no name on its right that its left-hand side does not bind. -/
theorem wilRuleValidate_vars {rule : WILRewriteRule} (accepted : wilRuleValidate rule = true) :
    ∀ name ∈ rule.rhs.vars, name ∈ rule.lhs.vars := by
  intro name read
  unfold wilRuleValidate at accepted
  split at accepted
  · cases accepted
  · cases accepted
  · -- A missing right-hand side reads nothing.
    rename_i absent _ _
    rw [absent] at read
    cases read
  · split at accepted
    · rename_i lhsVars rhsVars left right
      -- The table of the right side holds the name, so the table of the left side does.
      have onRight : some name ∈ rhsVars := (wrsRuleCollectVars_mem right).mpr (.inr read)
      have onLeft : some name ∈ lhsVars := by
        simpa using List.all_eq_true.mp accepted _ onRight
      simpa using (wrsRuleCollectVars_mem left).mp onLeft
    · cases accepted

/-- Binding more names keeps the earlier ones and adds the others. -/
theorem mem_bindNames {bound names : List String} {name : String} :
    name ∈ bindNames bound names ↔ name ∈ bound ∨ name ∈ names := by
  -- A name that is there already is not added again.
  induction names generalizing bound with
  | nil => simp [bindNames]
  | cons first rest next =>
    rw [bindNames, next]
    by_cases known : first ∈ bound
    · rw [if_pos known, List.mem_cons]
      constructor
      · rintro (old | later)
        · exact .inl old
        · exact .inr (.inr later)
      · rintro (old | rfl | later)
        · exact .inl old
        · exact .inl known
        · exact .inr later
    · rw [if_neg known, List.mem_append, List.mem_singleton, List.mem_cons, or_assoc]

/-- No name is bound twice. -/
theorem nodup_bindNames {bound names : List String} (distinct : bound.Nodup) :
    (bindNames bound names).Nodup := by
  induction names generalizing bound with
  | nil => exact distinct
  | cons first rest next =>
    rw [bindNames]
    -- A name that is bound already is left out, and a new one goes to the end.
    split
    · exact next distinct
    · rename_i fresh
      refine next (List.nodup_append.mpr ⟨distinct, List.nodup_singleton _, ?_⟩)
      rintro name old other single rfl
      exact fresh (List.mem_singleton.mp single ▸ old)

section Match

variable {equivalent : WILContext → Option Nat → Option Nat → Bool} {ctx : WILContext}

/-- A binding adds its name unless it is there. -/
theorem wrsSubstitutionBind_keys {subst extended : WILSubstitution} {name : String}
    {node : Option Nat}
    (found : wrsSubstitutionBind equivalent ctx subst (some name) node = some extended) :
    extended.map (·.1) = bindNames (subst.map (·.1)) [name] := by
  simp only [wrsSubstitutionBind] at found
  cases known : subst.lookup name with
  | some bound =>
    simp only [known, Option.ite_none_right_eq_some, Option.some.injEq] at found
    obtain ⟨-, rfl⟩ := found
    have member : name ∈ subst.map (·.1) := by
      obtain ⟨front, back, rfl, -⟩ := List.lookup_eq_some_iff.mp known
      simp
    simp [bindNames, member]
  | none =>
    simp only [known, Option.some.injEq] at found
    subst found
    -- The name is new, and goes to the end.
    have absent : name ∉ subst.map (·.1) := by
      intro member
      obtain ⟨entry, inside, rfl⟩ := List.mem_map.mp member
      have all := List.lookup_eq_none_iff.mp known entry inside
      simp at all
    simp [bindNames, absent]

mutual

/-- The bound names are those of the pattern, each once and in the order they are met. -/
theorem wrsMatchPattern_keys {subst extended : WILSubstitution} :
    ∀ {pattern : WILPattern} {node : Option Nat},
      wrsMatchPattern equivalent ctx subst pattern node = some extended →
      extended.map (·.1) = bindNames (subst.map (·.1)) pattern.vars
  | .var (some own), node, found | .sequence (some own) _, node, found => by
    rw [wrsMatchPattern] at found
    rw [WILPattern.vars]
    exact wrsSubstitutionBind_keys found
  | .var none, _, found | .sequence none _, _, found => by
    rw [wrsMatchPattern] at found
    cases found
  | .node kind inputs, node, found => by
    cases node with
    -- An operator needs a node with the same number of inputs, and the inputs bind the names.
    | none => simp [wrsMatchPattern] at found
    | some ref =>
      cases stored : ctx.graph[ref]? with
      | none => simp [wrsMatchPattern, deref, stored] at found
      | some record =>
        simp only [wrsMatchPattern, deref, Option.bind_some, stored,
          Option.ite_none_right_eq_some] at found
        rw [WILPattern.vars]
        exact matchInputs_keys found.2
  | .refinement base, node, found => by
    rw [wrsMatchPattern] at found
    rw [WILPattern.vars]
    exact wrsMatchPattern_keys found
  | .constInt _, _, found | .constFloat _, _, found | .constBool _, _, found
  | .predicate _, _, found => by
    -- Constants and predicates test the node and bind nothing.
    simp only [wrsMatchPattern, wrsMatchPattern.matchConstantAt, Option.ite_none_right_eq_some,
      Option.some.injEq] at found
    simp [found.2, WILPattern.vars, bindNames]
  | .wildcard, _, found => by
    simp only [wrsMatchPattern, Option.some.injEq] at found
    simp [found, WILPattern.vars, bindNames]
  | .null, _, found => by simp [wrsMatchPattern] at found

/-- The inputs of a node pattern bind their names one after the other. -/
theorem matchInputs_keys {subst extended : WILSubstitution} :
    ∀ {patterns : List WILPattern} {nodes : List (Option Nat)},
      matchInputs equivalent ctx subst patterns nodes = some extended →
      extended.map (·.1) = bindNames (subst.map (·.1)) (WILPattern.varsList patterns)
  | [], _, found => by
    simp only [matchInputs, Option.some.injEq] at found
    simp [found, WILPattern.varsList, bindNames]
  | _ :: _, [], found => by cases found
  | pattern :: patterns, node :: nodes, found => by
    obtain ⟨middle, first, rest⟩ := Option.bind_eq_some_iff.mp found
    rw [matchInputs_keys rest, wrsMatchPattern_keys first, WILPattern.varsList, bindNames_append]

end

/-- A name is bound exactly when it is among the keys. -/
theorem lookup_eq_none_iff_keys {subst : WILSubstitution} {name : String} :
    subst.lookup name = none ↔ name ∉ subst.map (·.1) := by
  rw [List.lookup_eq_none_iff]
  constructor
  -- An entry under the name, and no entry under it, exclude each other.
  · intro all member
    obtain ⟨entry, inside, rfl⟩ := List.mem_map.mp member
    have apart := all entry inside
    simp at apart
  · intro absent entry inside
    rw [bne_iff_ne]
    rintro rfl
    exact absent (List.mem_map_of_mem inside)

/-- A match binds every name that the pattern reads, whatever the pattern is made of. -/
theorem wrsMatchPattern_bound {subst extended : WILSubstitution} {pattern : WILPattern}
    {node : Option Nat}
    (found : wrsMatchPattern equivalent ctx subst pattern node = some extended) :
    ∀ name ∈ pattern.vars, ∃ bound, extended.lookup name = some bound := by
  intro name member
  -- The name is among the keys, so its lookup does not fail.
  have key : name ∈ extended.map (·.1) := by
    rw [wrsMatchPattern_keys found]
    exact mem_bindNames.mpr (.inr member)
  rw [← Option.isSome_iff_exists, ← Option.ne_none_iff_isSome, ne_eq, lookup_eq_none_iff_keys,
    not_not]
  exact key

end Match

/-- No input below a node is the null pointer. -/
def InputsPresent (ctx : WILContext) (node : Nat) : Prop :=
  ∀ user, Dag.Reach ctx.succ (some node) user → ¬ Dag.Edge ctx.succ user none

/-- In a graph without null slots no input below a node is null. -/
theorem NoNullInput.inputsPresent {ctx : WILContext} (present : NoNullInput ctx) (node : Nat) :
    InputsPresent ctx node := by
  intro user _ edge
  cases user with
  | none => exact absurd edge List.not_mem_nil
  | some user => exact present user edge

/-- What is reached from a node with all its inputs present is a node. -/
theorem InputsPresent.reached {ctx : WILContext} {node : Nat} (present : InputsPresent ctx node)
    {pointer : Option Nat} (path : Dag.Reach ctx.succ (some node) pointer) :
    ∃ target, pointer = some target := by
  -- The last step of the path would lead to the null pointer.
  rcases Relation.ReflTransGen.cases_tail path with same | ⟨user, before, edge⟩
  · exact ⟨node, same⟩
  · cases pointer with
    | none => exact (present user before edge).elim
    | some target => exact ⟨target, rfl⟩

section Build

variable {subst other : WILSubstitution}

mutual

/-- Building a pattern looks up the names that a match binds and no others. -/
theorem wrsApplyPattern_congr : ∀ {pattern : WILPattern} {ctx : WILContext},
    (∀ name ∈ pattern.vars,
      wilSubstitutionLookup other (some name) = wilSubstitutionLookup subst (some name)) →
    wrsApplyPattern other pattern ctx = wrsApplyPattern subst pattern ctx
  | .var (some own), ctx, agree | .sequence (some own) _, ctx, agree => by
    rw [wrsApplyPattern, wrsApplyPattern, agree own (by simp [WILPattern.vars])]
  | .node kind inputs, ctx, agree => by
    rw [wrsApplyPattern, wrsApplyPattern,
      wrsApplyPatterns_congr (by simpa only [WILPattern.vars] using agree)]
  | .refinement base, ctx, agree => by
    rw [wrsApplyPattern, wrsApplyPattern]
    have inner : ∀ name ∈ base.vars,
        wilSubstitutionLookup other (some name) = wilSubstitutionLookup subst (some name) := by
      simpa only [WILPattern.vars] using agree
    exact wrsApplyPattern_congr inner
  | .var none, _, _ | .sequence none _, _, _ | .null, _, _ | .constInt _, _, _
  | .constFloat _, _, _ | .constBool _, _, _ | .wildcard, _, _ | .predicate _, _, _ => rfl

/-- Building inputs looks up the names of these inputs. -/
theorem wrsApplyPatterns_congr : ∀ {patterns : List WILPattern} {ctx : WILContext},
    (∀ name ∈ WILPattern.varsList patterns,
      wilSubstitutionLookup other (some name) = wilSubstitutionLookup subst (some name)) →
    wrsApplyPatterns other patterns ctx = wrsApplyPatterns subst patterns ctx
  | [], _, _ => rfl
  | pattern :: patterns, ctx, agree => by
    simp only [WILPattern.varsList, List.mem_append] at agree
    rw [wrsApplyPatterns, wrsApplyPatterns,
      -- The first input reads the same bindings, and so do the others.
      wrsApplyPattern_congr (fun name member => agree name (.inl member))]
    simp only [wrsApplyPatterns_congr (fun name member => agree name (.inr member))]

end

end Build

/-- Every name of a left-hand side that matches is bound to a node, unless an input is missing. -/
theorem wilPatternMatch_present {equivalent : WILContext → Option Nat → Option Nat → Bool}
    {ctx : WILContext} {pattern : WILPattern} {node : Nat} (present : InputsPresent ctx node)
    {found : WILMatch} (matched : wilPatternMatch equivalent ctx pattern (some node) = some found) :
    ∀ name ∈ pattern.vars, ∃ target,
      wilSubstitutionLookup found.substitution (some name) = some target := by
  intro name onLeft
  simp only [wilPatternMatch, Option.map_eq_some_iff] at matched
  obtain ⟨substitution, succeeded, rfl⟩ := matched
  -- The name is bound, and what it is bound to lies below the node.
  obtain ⟨bound, known⟩ := wrsMatchPattern_bound succeeded name onLeft
  obtain ⟨more, split, entries⟩ := wrsMatchPattern_binds succeeded
  have entry : (name, bound) ∈ more := by
    rw [split, List.nil_append] at known
    obtain ⟨front, back, rfl, -⟩ := List.lookup_eq_some_iff.mp known
    simp
  obtain ⟨target, equal⟩ := present.reached (entries _ entry)
  have equal : bound = some target := equal
  exact ⟨target, by simp [wilSubstitutionLookup, known, equal]⟩

/-- Every name that an accepted rule reads on its right is bound to a node by a match of its left
side. -/
theorem wilRuleValidate_lookup {equivalent : WILContext → Option Nat → Option Nat → Bool}
    {ctx : WILContext} {rule : WILRewriteRule} (accepted : wilRuleValidate rule = true)
    {node : Nat} (present : InputsPresent ctx node) {found : WILMatch}
    (matched : wilPatternMatch equivalent ctx rule.lhs (some node) = some found) :
    ∀ name ∈ rule.rhs.vars, ∃ target,
      wilSubstitutionLookup found.substitution (some name) = some target :=
  -- The validated name is one of the left side.
  fun name read =>
    wilPatternMatch_present present matched name (wilRuleValidate_vars accepted name read)

/-- A name that a match has bound is one of those of its left-hand side. -/
theorem wilPatternMatch_vars {equivalent : WILContext → Option Nat → Option Nat → Bool}
    {ctx : WILContext} {pattern : WILPattern} {node target : Nat} {found : WILMatch}
    {name : String} (matched : wilPatternMatch equivalent ctx pattern (some node) = some found)
    (known : wilSubstitutionLookup found.substitution (some name) = some target) :
    name ∈ pattern.vars := by
  obtain ⟨substitution, succeeded, rfl⟩ := Option.map_eq_some_iff.mp matched
  -- The keys of the substitution are the names of the pattern, each one once.
  have keys := wrsMatchPattern_keys succeeded
  have key : name ∈ substitution.map (·.1) := by
    by_contra absent
    simp [wilSubstitutionLookup, lookup_eq_none_iff_keys.mpr absent] at known
  rw [keys] at key
  rcases mem_bindNames.mp key with old | new
  · cases old
  · exact new

/-- Every name that an accepted rule reads on its right is bound to a node by a match of its left
side, and building the right-hand side depends on no other binding. The names in element patterns,
which are not read, are bound too exactly if the left side binds them. -/
theorem wilRuleValidate_binds
    (equivalent : WILContext → Option Nat → Option Nat → Bool) (ctx : WILContext)
    {rule : WILRewriteRule} (accepted : wilRuleValidate rule = true) {node : Nat}
    (present : InputsPresent ctx node) {found : WILMatch}
    (matched : wilPatternMatch equivalent ctx rule.lhs (some node) = some found) :
    (∀ name ∈ rule.rhs.vars, ∃ target,
      wilSubstitutionLookup found.substitution (some name) = some target) ∧
    (∀ (other : WILSubstitution) (built : WILContext),
      (∀ name ∈ rule.rhs.vars, wilSubstitutionLookup other (some name) =
        wilSubstitutionLookup found.substitution (some name)) →
      wilSubstitutionApply built other rule.rhs =
        wilSubstitutionApply built found.substitution rule.rhs) ∧
    ((∀ name ∈ rule.rhs.names, ∃ target,
      wilSubstitutionLookup found.substitution (some name) = some target) ↔
      ∀ name ∈ rule.rhs.elementNames, name ∈ rule.lhs.vars) := by
  have reads := wilRuleValidate_lookup accepted present matched
  refine ⟨reads, fun _ _ agree => wrsApplyPattern_congr agree, ?_, ?_⟩
  · -- What is bound comes from the left side, whether the right side reads it or not.
    intro bound name written
    obtain ⟨target, known⟩ := bound name (WILPattern.mem_names.mpr (.inr written))
    exact wilPatternMatch_vars matched known
  · intro onLeft name written
    rcases WILPattern.mem_names.mp written with read | element
    · exact reads name read
    · exact wilPatternMatch_present present matched name (onLeft name element)

/-- A negation over a parameter. -/
def negatedParam : WILContext := (wilMakeUnary oneParam .neg (some 0)).1

/-- The parameter is present, and it has no inputs. -/
theorem negatedParam_present : InputsPresent negatedParam 1 := by
  intro user _ edge
  have here : none ∈ negatedParam.succ user := edge
  cases user with
  | none => cases here
  | some user =>
    have inside : user < 2 := negatedParam.inside_of_target here
    have all : ∀ user < 2, none ∉ negatedParam.targets user := by decide
    exact all user inside here

/-- The negation of a sequence becomes that sequence. -/
def unwrapSequence (element : WILPattern) : WILRewriteRule :=
  wilRuleCreateSimple "unwrap" (.node .neg [.sequence (some "xs") .null])
    (.sequence (some "xs") element)

/-- The rule is accepted, and its name is bound to the parameter wherever it is written, which is in
an element pattern as well. -/
theorem wilRuleValidate_binds_unwrap :
    (unwrapSequence (wilPatVar "xs")).rhs.elementNames = ["xs"] ∧
      ∀ name ∈ (unwrapSequence (wilPatVar "xs")).rhs.names, ∃ target,
        wilSubstitutionLookup [("xs", some 0)] (some name) = some target := by
  have binds := wilRuleValidate_binds (fun _ _ _ => false) negatedParam
    (show wilRuleValidate (unwrapSequence (wilPatVar "xs")) = true by decide) negatedParam_present
    (show wilPatternMatch _ _ _ (some 1) = some ⟨some 1, [("xs", some 0)]⟩ from rfl)
  -- The element pattern of the right side repeats the name of the sequence.
  exact ⟨by decide, binds.2.2.mpr (by decide)⟩

/-- A name that stands in an element pattern only is bound by nothing, although the rule is accepted.
-/
theorem wilRuleValidate_element_unbound :
    ¬ ∀ (equivalent : WILContext → Option Nat → Option Nat → Bool) (ctx : WILContext)
      (rule : WILRewriteRule), wilRuleValidate rule = true → rule.action = none →
      ∀ node, InputsPresent ctx node → ∀ found,
        wilPatternMatch equivalent ctx rule.lhs (some node) = some found →
        ∀ name ∈ rule.rhs.names, ∃ target,
          wilSubstitutionLookup found.substitution (some name) = some target := by
  intro claimed
  have bound := claimed (fun _ _ _ => false) negatedParam (unwrapSequence (wilPatVar "y"))
    (by decide) rfl 1 negatedParam_present ⟨some 1, [("xs", some 0)]⟩ rfl "y" (by decide)
  -- The one binding is that of the sequence.
  obtain ⟨target, found⟩ := bound
  cases found

end Wirble
