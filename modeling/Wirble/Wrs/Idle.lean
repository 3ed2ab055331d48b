import Wirble.Wrs.Validated

/-! Right-hand sides that build nothing, and the test for normal forms in their presence. -/

namespace Wirble

namespace WILPattern

mutual

/-- Building the pattern adds nodes to the graph, even when it returns the null pointer. -/
def allocates : WILPattern → Bool
  | constInt _ | constFloat _ | constBool _ => true
  | node kind inputs => kind.arity.isSome || allocatesAny inputs
  | refinement base => base.allocates
  | _ => false

/-- Some pattern of the list adds nodes. -/
def allocatesAny : List WILPattern → Bool
  | [] => false
  | pattern :: rest => pattern.allocates || allocatesAny rest

end

/-- Building the pattern returns the null pointer. -/
def yieldsNull (subst : WILSubstitution) : WILPattern → Bool
  | var name | sequence name _ => (wilSubstitutionLookup subst name).isNone
  | constInt _ | constFloat _ | constBool _ => false
  -- Only the operators have builders.
  | node kind _ => kind.arity.isNone
  | refinement base => base.yieldsNull subst
  | null | wildcard | predicate _ => true

/-- Building the pattern has neither a result nor an effect. -/
def idle (pattern : WILPattern) (subst : WILSubstitution) : Bool :=
  pattern.yieldsNull subst && !pattern.allocates

end WILPattern

section Build

variable {subst : WILSubstitution}

/-- The null pointer is returned by the patterns without a builder and the unbound names. -/
theorem wrsApplyPattern_eq_none_iff : ∀ {pattern : WILPattern} {ctx : WILContext},
    (wrsApplyPattern subst pattern ctx).2 = none ↔ pattern.yieldsNull subst = true
  | .var name, _ | .sequence name _, _ => by
    -- A name gives null just when it is bound to null or to nothing.
    rw [wrsApplyPattern, WILPattern.yieldsNull, Option.isNone_iff_eq_none]
  | .refinement base, ctx => by
    rw [wrsApplyPattern, WILPattern.yieldsNull]
    exact wrsApplyPattern_eq_none_iff
  | .constInt _, _ | .constFloat _, _ | .constBool _, _ => by
    -- Constants are always built.
    rw [wrsApplyPattern, WILPattern.yieldsNull]
    simp
  | .node kind inputs, ctx => by
    rw [WILPattern.yieldsNull]
    cases arity : kind.arity with
    | none => simp [wrsApplyPattern, arity]
    | some count =>
      -- An operator with a builder is a fresh node.
      obtain ⟨_, _, -, built⟩ := wrsApplyPattern_operator subst arity inputs ctx
      rw [built]
      simp
  | .null, _ | .wildcard, _ | .predicate _, _ => by
    -- These patterns stand for no node.
    rw [wrsApplyPattern, WILPattern.yieldsNull]
    simp

mutual

/-- A graph grows exactly by the patterns that add nodes, and stays the same under the others. -/
theorem wrsApplyPattern_allocates : ∀ (pattern : WILPattern) (ctx : WILContext),
    (pattern.allocates = false → (wrsApplyPattern subst pattern ctx).1 = ctx) ∧
      (pattern.allocates = true →
        ctx.graph.length < (wrsApplyPattern subst pattern ctx).1.graph.length)
  | .var _, _ | .sequence _ _, _ | .null, _ | .wildcard, _ | .predicate _, _ =>
    ⟨fun _ => by rw [wrsApplyPattern], nofun⟩
  | .refinement base, ctx => by
    rw [wrsApplyPattern, WILPattern.allocates]
    exact wrsApplyPattern_allocates base ctx
  | .constInt _, ctx | .constFloat _, ctx | .constBool _, ctx => by
    -- One fresh node is appended.
    rw [wrsApplyPattern, WILPattern.allocates]
    refine ⟨nofun, fun _ => ?_⟩
    simp [wilMakeConstInt, wilMakeConstFloat, wilMakeConstBool]
  | .node kind inputs, ctx => by
    obtain ⟨same, more⟩ := wrsApplyPatterns_allocates inputs ctx
    rw [WILPattern.allocates]
    cases arity : kind.arity with
    | none =>
      -- The inputs are built, and their results are dropped.
      simpa [wrsApplyPattern, arity] using And.intro same more
    | some count =>
      refine ⟨nofun, fun _ => ?_⟩
      obtain ⟨_, _, -, built⟩ := wrsApplyPattern_operator subst arity inputs ctx
      rw [built, length_build]
      cases grown : WILPattern.allocatesAny inputs with
      | false =>
        rw [same grown]
        omega
      | true =>
        have := more grown
        omega

/-- Building any list of patterns leaves the graph as it is, or adds a node, as the patterns say. -/
theorem wrsApplyPatterns_allocates : ∀ (patterns : List WILPattern) (ctx : WILContext),
    (WILPattern.allocatesAny patterns = false → (wrsApplyPatterns subst patterns ctx).1 = ctx) ∧
      (WILPattern.allocatesAny patterns = true →
        ctx.graph.length < (wrsApplyPatterns subst patterns ctx).1.graph.length)
  | [], _ => ⟨fun _ => rfl, nofun⟩
  | pattern :: rest, ctx => by
    obtain ⟨same, more⟩ := wrsApplyPattern_allocates pattern ctx
    obtain ⟨sameRest, moreRest⟩ :=
      wrsApplyPatterns_allocates rest (wrsApplyPattern subst pattern ctx).1
    simp only [wrsApplyPatterns, WILPattern.allocatesAny]
    -- Either the first pattern grows the graph, or the rest starts from the same graph.
    cases first : pattern.allocates with
    | false =>
      rw [same first] at sameRest moreRest ⊢
      simpa using And.intro sameRest moreRest
    | true =>
      refine ⟨nofun, fun _ => ?_⟩
      have grown := more first
      cases later : WILPattern.allocatesAny rest with
      | false =>
        rw [sameRest later]
        exact grown
      | true => exact Nat.lt_trans grown (moreRest later)

end

/-- An idle pattern leaves the context alone. -/
theorem wrsApplyPattern_idle {pattern : WILPattern} (ctx : WILContext)
    (idle : pattern.idle subst = true) : wrsApplyPattern subst pattern ctx = (ctx, none) := by
  simp only [WILPattern.idle, Bool.and_eq_true, Bool.not_eq_true'] at idle
  exact Prod.ext ((wrsApplyPattern_allocates pattern ctx).1 idle.2)
    (wrsApplyPattern_eq_none_iff.mpr idle.1)

/-- A pattern that is not idle returns a node or leaves a longer graph. -/
theorem wrsApplyPattern_not_idle {pattern : WILPattern} (ctx : WILContext)
    (busy : pattern.idle subst = false) (absent : (wrsApplyPattern subst pattern ctx).2 = none) :
    ctx.graph.length < (wrsApplyPattern subst pattern ctx).1.graph.length := by
  have null := wrsApplyPattern_eq_none_iff.mp absent
  simp only [WILPattern.idle, null, Bool.true_and, Bool.not_eq_false'] at busy
  exact (wrsApplyPattern_allocates pattern ctx).2 busy

/-- No pattern makes a graph shorter. -/
theorem wrsApplyPattern_length (pattern : WILPattern) (ctx : WILContext) :
    ctx.graph.length ≤ (wrsApplyPattern subst pattern ctx).1.graph.length := by
  cases grown : pattern.allocates with
  | false => rw [(wrsApplyPattern_allocates pattern ctx).1 grown]
  | true => exact Nat.le_of_lt ((wrsApplyPattern_allocates pattern ctx).2 grown)

end Build

section Rules

variable (equivalent : WILContext → Option Nat → Option Nat → Bool)

/-- The rule is tried at the node and its left-hand side matches there. -/
def Matches (ctx : WILContext) (rule : WILRewriteRule) (node : Option Nat) (found : WILMatch) :
    Prop :=
  rule.enabled = true ∧ node.isSome ∧ wilPatternMatch equivalent ctx rule.lhs node = some found

variable {equivalent} {sys : WILRewriteSystem} {node : Option Nat}

/-- A node is in normal form when no rule matches it. -/
theorem wilRewriteSystemIsNormalForm_iff :
    wilRewriteSystemIsNormalForm equivalent sys node = true ↔
      ∀ rule ∈ sys.rules, ∀ found, ¬ Matches equivalent sys.ctx rule node found := by
  cases node with
  | none => simp [wilRewriteSystemIsNormalForm, Matches]
  | some node =>
    simp only [wilRewriteSystemIsNormalForm, Option.isNone_some, Bool.false_or, List.all_eq_true,
      Bool.or_eq_true, Bool.not_eq_true', Option.isNone_iff_eq_none, Matches, Option.isSome_some,
      true_and, not_and]
    -- A rule is passed over when it is disabled or has no match.
    refine forall₂_congr fun rule _ => ?_
    cases rule.enabled <;> simp [Option.eq_none_iff_forall_ne_some]

/-- A rule that does not match does nothing. -/
theorem wrsApplyRule_unmatched {rule : WILRewriteRule}
    (unmatched : ∀ found, ¬ Matches equivalent sys.ctx rule node found) :
    wrsApplyRule equivalent sys rule node = (sys, none) := by
  unfold wrsApplyRule
  split
  · rfl
  -- The guards of the procedure were passed, so only the match can fail.
  · rename_i tried
    simp only [Bool.or_eq_true, Bool.not_eq_true', not_or, Bool.not_eq_true, Bool.not_eq_false,
      Option.isNone_eq_false_iff] at tried
    cases matched : wilPatternMatch equivalent sys.ctx rule.lhs node with
    | none => rfl
    | some found => exact (unmatched found ⟨tried.2, tried.1, matched⟩).elim

/-- A rule that matches builds its right-hand side, and redirects uses to what was built. -/
theorem wrsApplyRule_matched {rule : WILRewriteRule} {found : WILMatch}
    (plain : rule.action = none) (matched : Matches equivalent sys.ctx rule node found) :
    (wrsApplyRule equivalent sys rule node).2 =
        (wrsApplyPattern found.substitution rule.rhs sys.ctx).2 ∧
      ((wrsApplyPattern found.substitution rule.rhs sys.ctx).2 = none →
        (wrsApplyRule equivalent sys rule node).1 =
          { sys with ctx := (wrsApplyPattern found.substitution rule.rhs sys.ctx).1 }) ∧
      ∀ replacement, (wrsApplyPattern found.substitution rule.rhs sys.ctx).2 = some replacement →
        (wrsApplyRule equivalent sys rule node).1.ctx = wilNodeReplaceAllUses
          (wrsApplyPattern found.substitution rule.rhs sys.ctx).1 node (some replacement) := by
  obtain ⟨enabled, pointer, matched⟩ := matched
  obtain ⟨ref, rfl⟩ := Option.isSome_iff_exists.mp pointer
  unfold wrsApplyRule
  rw [enabled, matched, plain]
  -- None of the guards applies, so the right-hand side is built.
  simp only [Option.isNone_some, Bool.not_true, Bool.or_self, Bool.false_eq_true, if_false,
    wilSubstitutionApply]
  cases wrsApplyPattern found.substitution rule.rhs sys.ctx with
  | mk built replacement =>
    -- Without a replacement only the built nodes stay; with one the uses are redirected.
    cases replacement with
    | none => exact ⟨rfl, fun _ => rfl, fun other equal => absurd equal (Option.some_ne_none _).symm⟩
    | some replacement =>
      refine ⟨rfl, fun failed => absurd failed (Option.some_ne_none _), fun other equal => ?_⟩
      cases equal
      rfl

/-- A rule that returns nothing leaves a graph at least as long, and the rules as they are. -/
theorem wrsApplyRule_none_length {rule : WILRewriteRule} (plain : rule.action = none)
    (failed : (wrsApplyRule equivalent sys rule node).2 = none) :
    sys.ctx.graph.length ≤ (wrsApplyRule equivalent sys rule node).1.ctx.graph.length := by
  by_cases matched : ∃ found, Matches equivalent sys.ctx rule node found
  -- A match may have built nodes before it failed.
  · obtain ⟨found, matched⟩ := matched
    obtain ⟨result, after, -⟩ := wrsApplyRule_matched plain matched
    rw [after (result ▸ failed)]
    exact wrsApplyPattern_length _ _
  · rw [wrsApplyRule_unmatched (not_exists.mp matched)]

/-- The first rule that returns a node ends the search, and the others run one after the other. -/
theorem applyFirst_cons (rule : WILRewriteRule) (rules : List WILRewriteRule) :
    applyFirst equivalent (rule :: rules) sys node =
      if (wrsApplyRule equivalent sys rule node).2 = none then
        applyFirst equivalent rules (wrsApplyRule equivalent sys rule node).1 node
      else wrsApplyRule equivalent sys rule node := by
  rw [applyFirst]
  cases wrsApplyRule equivalent sys rule node with
  | mk after result => cases result <;> simp

/-- Rules that return nothing never make a graph shorter. -/
theorem applyFirst_none_length {rules : List WILRewriteRule}
    (plain : ∀ rule ∈ rules, rule.action = none)
    (failed : (applyFirst equivalent rules sys node).2 = none) :
    sys.ctx.graph.length ≤ (applyFirst equivalent rules sys node).1.ctx.graph.length := by
  -- Induction on the rules still to be tried.
  induction rules generalizing sys with
  | nil => exact Nat.le_refl _
  | cons rule rest next =>
    rw [applyFirst_cons] at failed ⊢
    by_cases first : (wrsApplyRule equivalent sys rule node).2 = none
    · rw [if_pos first] at failed ⊢
      exact Nat.le_trans (wrsApplyRule_none_length (plain rule (.head _)) first)
        (next (fun other member => plain other (.tail _ member)) failed)
    · rw [if_neg first] at failed
      exact (first failed).elim

/-- Rules return nothing and keep the graph exactly when all that match build idle patterns. -/
theorem applyFirst_quiet_iff {rules : List WILRewriteRule}
    (plain : ∀ rule ∈ rules, rule.action = none) :
    ((applyFirst equivalent rules sys node).2 = none ∧
        (applyFirst equivalent rules sys node).1.ctx.graph = sys.ctx.graph) ↔
      ∀ rule ∈ rules, ∀ found, Matches equivalent sys.ctx rule node found →
        rule.rhs.idle found.substitution = true := by
  -- Induction on the rules: as long as all were idle, the next one meets the same system.
  induction rules with
  | nil => simp [applyFirst]
  | cons rule rest next =>
    have plainRule := plain rule (.head _)
    have plainRest := fun other (member : other ∈ rest) => plain other (.tail _ member)
    rw [List.forall_mem_cons, applyFirst_cons]
    by_cases idle : ∀ found, Matches equivalent sys.ctx rule node found →
        rule.rhs.idle found.substitution = true
    · -- An idle or unmatched rule is passed over.
      have passed : wrsApplyRule equivalent sys rule node = (sys, none) := by
        by_cases matched : ∃ found, Matches equivalent sys.ctx rule node found
        · obtain ⟨found, matched⟩ := matched
          obtain ⟨result, after, -⟩ := wrsApplyRule_matched plainRule matched
          have built := wrsApplyPattern_idle sys.ctx (idle found matched)
          rw [built] at result after
          exact Prod.ext (after rfl) result
        · exact wrsApplyRule_unmatched (not_exists.mp matched)
      rw [passed, if_pos rfl]
      exact (next plainRest).trans ⟨fun later => ⟨idle, later⟩, And.right⟩
    · -- A rule that builds something shows it by its result or by the length of the graph.
      refine iff_of_false ?_ fun all => idle all.1
      push Not at idle
      obtain ⟨found, matched, busy⟩ := idle
      obtain ⟨result, after, -⟩ := wrsApplyRule_matched plainRule matched
      rintro ⟨failed, unchanged⟩
      -- A failing rule leaves the rest of the list to decide, which can only make the graph longer.
      by_cases first : (wrsApplyRule equivalent sys rule node).2 = none
      · rw [if_pos first] at failed unchanged
        have absent := result ▸ first
        have grown := wrsApplyPattern_not_idle sys.ctx (by simpa using busy) absent
        have later := applyFirst_none_length plainRest failed
        rw [unchanged, after absent] at later
        exact absurd grown (Nat.not_lt.mpr later)
      · rw [if_neg first] at failed
        exact first failed

end Rules

/-- The test for normal forms agrees with rewriting at a node exactly when, if any rule matches
there, a rule matches whose right-hand side builds something. -/
theorem wilRewriteSystemIsNormalForm_agrees_iff
    (equivalent : WILContext → Option Nat → Option Nat → Bool) (sys : WILRewriteSystem)
    (simple : ∀ rule ∈ sys.rules, rule.action = none ∧ wilRuleValidate rule = true)
    (node : Option Nat) :
    (wilRewriteSystemIsNormalForm equivalent sys node = true ↔
      (wilRewriteSystemApplyAt equivalent sys node).2 = none ∧
        (wilRewriteSystemApplyAt equivalent sys node).1.ctx.graph = sys.ctx.graph) ↔
    ((∃ rule ∈ sys.rules, ∃ found, Matches equivalent sys.ctx rule node found) →
      ∃ rule ∈ sys.rules, ∃ found, Matches equivalent sys.ctx rule node found ∧
        rule.rhs.idle found.substitution = false) := by
  have quiet : _ ∧ (applyFirst equivalent sys.rules sys node).1.ctx.graph = sys.ctx.graph ↔ _ :=
    applyFirst_quiet_iff fun rule member => (simple rule member).1
  rw [wilRewriteSystemIsNormalForm_iff, wilRewriteSystemApplyAt, quiet]
  constructor
  · -- Where a rule matches, the test says no, so not all matching rules are idle.
    rintro agrees ⟨rule, member, found, matched⟩
    by_contra none
    push Not at none
    refine agrees.mpr (fun other inside hit trial => ?_) rule member found matched
    simpa using none other inside hit trial
  · -- A rule that builds something is not quiet, so that no rule matches where all are.
    intro builds
    constructor
    · exact fun normal rule member found matched => (normal rule member found matched).elim
    · intro idle rule member found matched
      obtain ⟨other, inside, hit, trial, busy⟩ := builds ⟨rule, member, found, matched⟩
      rw [idle other inside hit trial] at busy
      cases busy

/-- A negation becomes whatever a right-hand side builds. -/
def negationTo (rhs : WILPattern) : WILRewriteRule :=
  wilRuleCreateSimple "negation" (.node .neg [wilPatVar "x"]) rhs

/-- The rules over one negated parameter. -/
def negatedSystem (rule : WILRewriteRule) : WILRewriteSystem :=
  { wilRewriteSystemCreate negatedParam with rules := [rule] }

/-- A wildcard on the right is accepted, and the match fails the test though nothing applies. -/
theorem wilRewriteSystemIsNormalForm_not_agrees :
    ¬ ∀ (equivalent : WILContext → Option Nat → Option Nat → Bool) (sys : WILRewriteSystem),
      (∀ rule ∈ sys.rules, rule.action = none ∧ wilRuleValidate rule = true) →
      ∀ node, wilRewriteSystemIsNormalForm equivalent sys node = true ↔
        (wilRewriteSystemApplyAt equivalent sys node).2 = none ∧
          (wilRewriteSystemApplyAt equivalent sys node).1.ctx.graph = sys.ctx.graph := by
  intro claimed
  have simple : ∀ rule ∈ (negatedSystem (negationTo .wildcard)).rules,
      rule.action = none ∧ wilRuleValidate rule = true := by
    intro rule member
    obtain rfl := List.mem_singleton.mp member
    exact ⟨rfl, by decide⟩
  -- The match alone fails the test, though nothing is ever built or redirected.
  have agrees := claimed (fun _ _ _ => false) _ simple (some 1)
  have normal := agrees.mpr ⟨rfl, rfl⟩
  cases normal

/-- A rule that builds its right-hand side makes the test and the rewriting agree. -/
theorem wilRewriteSystemIsNormalForm_agrees_negation :
    wilRewriteSystemIsNormalForm (fun _ _ _ => false) (negatedSystem (negationTo (wilPatVar "x")))
        (some 1) = true ↔
      (wilRewriteSystemApplyAt (fun _ _ _ => false) (negatedSystem (negationTo (wilPatVar "x")))
        (some 1)).2 = none ∧
      (wilRewriteSystemApplyAt (fun _ _ _ => false) (negatedSystem (negationTo (wilPatVar "x")))
        (some 1)).1.ctx.graph = (negatedSystem (negationTo (wilPatVar "x"))).ctx.graph := by
  have simple : ∀ rule ∈ (negatedSystem (negationTo (wilPatVar "x"))).rules,
      rule.action = none ∧ wilRuleValidate rule = true := by
    intro rule member
    obtain rfl := List.mem_singleton.mp member
    exact ⟨rfl, by decide⟩
  -- The match builds its variable, so it is redirected and changes the graph.
  refine (wilRewriteSystemIsNormalForm_agrees_iff _ _ simple (some 1)).mpr fun _ => ?_
  exact ⟨_, .head _, ⟨some 1, [("x", some 0)]⟩, ⟨rfl, rfl, rfl⟩, rfl⟩

end Wirble
