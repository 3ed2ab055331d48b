import Wirble.Wrs.Idle
import Wirble.Wrs.SExprText

/-! The conditions of loaded rules, and the runs in which they are respected. -/

namespace Wirble

open QuotedSexp (Node)

/-! Loading a rule with its condition. -/

section Load

mutual

/-- A tree without the kinds of its atoms, which patterns do not depend on. -/
def wrsPlainTree : Node → Sexp
  | .atom _ text => .atom text
  | .list children => .list (wrsPlainTrees children)

/-- Several trees without the kinds of their atoms. -/
def wrsPlainTrees : List Node → List Sexp
  | [] => []
  | child :: rest => wrsPlainTree child :: wrsPlainTrees rest

end

def wirbleSexpAtomEquals (node : Option Node) (text : String) : Bool :=
  wrsAtomIs (node.map wrsPlainTree) text

/-- The sibling of the first of some elements that is the keyword. -/
def wirbleSexpFindKeyword (keyword : String) : List Node → Option Node
  | [] => none
  | child :: rest =>
    if wirbleSexpAtomEquals (some child) keyword then rest.head?
    else wirbleSexpFindKeyword keyword rest

/-- The parts of a rule form, where a missing part is the null pointer. -/
structure WirbleSexpRuleView where
  name : Option Node
  matched : Option Node
  replace : Option Node
  condition : Option Node

/-- The parts of a rule form that has a pattern and a replacement. -/
def wirbleSexpExtractRule : Node → Option WirbleSexpRuleView
  | .list children =>
    if wirbleSexpAtomEquals children.head? "rule" then
      let view : WirbleSexpRuleView := {
        name := wirbleSexpFindKeyword ":name" children.tail
        matched := wirbleSexpFindKeyword ":match" children.tail
        replace := wirbleSexpFindKeyword ":replace" children.tail
        condition := wirbleSexpFindKeyword ":when" children.tail }
      if view.matched.isSome && view.replace.isSome then some view else none
    else none
  | .atom _ _ => none

/-- The pattern of a part, which is the null pattern for the null pointer. -/
def wrsPatternFromPart (part : Option Node) : WILPattern :=
  (part.map fun node => wrsPatternFromSexpNode (wrsPlainTree node)).getD .null

-- `strtod` belongs to the C library.
variable (strtod : List Char → BitVec 64)

/-- The rule of a form. The condition is kept as the guard of the rule. -/
def wrsRuleFromTree (form : Node) : Option WILRewriteRule :=
  (wirbleSexpExtractRule form).map fun view =>
    -- The null pointer of a rule without a name reads as the empty name.
    let name := (sexpText (view.name.map wrsPlainTree)).getD []
    { wilRuleCreateSimple (String.ofList name) (wrsPatternFromPart view.matched)
        (wrsPatternFromPart view.replace) with
      guard := view.condition.map (wrsSexprFromTree strtod) }

end Load

/-- A rule from the loader, which a system may have numbered and disabled. -/
def LoadedRule (rule : WILRewriteRule) : Prop :=
  ∃ strtod form loaded, wrsRuleFromTree strtod form = some loaded ∧
    rule = { loaded with enabled := rule.enabled, statsIndex := rule.statsIndex }

/-- The loader gives rules no actions. -/
theorem LoadedRule.plain {rule : WILRewriteRule} (loaded : LoadedRule rule) :
    rule.action = none := by
  obtain ⟨strtod, form, base, made, same⟩ := loaded
  obtain ⟨view, -, built⟩ := Option.map_eq_some_iff.mp made
  rw [same, ← built]
  rfl

/-! The rules that calls of the engine try, one after the other. -/

/-- A rule that is tried at a node. -/
structure RuleTry where
  sys : WILRewriteSystem
  rule : WILRewriteRule
  node : Option Nat

section Tries

variable (equivalent : WILContext → Option Nat → Option Nat → Bool)

def wilRewriteSystemFindRule (sys : WILRewriteSystem) (name : String) : Option WILRewriteRule :=
  sys.rules.find? (·.name == name)

/-- `wilRewriteSystemApplyRule`, where a null rule leaves the system alone. -/
def wilRewriteSystemApplyRule (sys : WILRewriteSystem) (ruleName : String) (node : Option Nat) :
    WILRewriteSystem × Option Nat :=
  match wilRewriteSystemFindRule sys ruleName with
  | some rule => wrsApplyRule equivalent sys rule node
  | none => (sys, none)

/-- The rules that `applyFirst` tries. -/
def firstTries : List WILRewriteRule → WILRewriteSystem → Option Nat → List RuleTry
  | [], _, _ => []
  | rule :: rules, sys, node =>
    ⟨sys, rule, node⟩ ::
      match wrsApplyRule equivalent sys rule node with
      | (sys, none) => firstTries rules sys node
      | (_, some _) => []

/-- The rules that are tried below a node, from the given slot on. -/
def inputTries
    (recurse : WILRewriteSystem → Option Nat → Option (WILRewriteSystem × Option Nat))
    (recurseTries : WILRewriteSystem → Option Nat → List RuleTry) (node : Nat) :
    Nat → Nat → WILRewriteSystem → List RuleTry
  | 0, _, _ => []
  | fuel + 1, index, sys =>
    if index < sys.ctx.inputCount node then
      recurseTries sys (sys.ctx.inputAt node index) ++
        match recurse sys (sys.ctx.inputAt node index) with
        | none => []
        | some (sys, none) => inputTries recurse recurseTries node fuel (index + 1) sys
        | some (sys, some replacement) =>
          inputTries recurse recurseTries node fuel (index + 1)
            { sys with ctx := wilNodeReplaceInput sys.ctx node index (some replacement) }
    else []

/-- The rules that one pass tries, as far as the fuel allows. -/
def passTries : Nat → WILRewriteSystem → Option Nat → List RuleTry
  | 0, _, _ => []
  | _ + 1, _, none => []
  | fuel + 1, sys, some node =>
    if sys.strategy = .innermost then
      inputTries (wrsApplyRecursive equivalent fuel) (passTries fuel) node fuel 0 sys ++
        match rewriteInputs (wrsApplyRecursive equivalent fuel) node fuel 0 sys with
        | none => []
        | some sys => firstTries equivalent sys.rules sys (some node)
    else
      firstTries equivalent sys.rules sys (some node) ++
        match wilRewriteSystemApplyAt equivalent sys (some node) with
        | (_, some _) => []
        | (sys, none) =>
          inputTries (wrsApplyRecursive equivalent fuel) (passTries fuel) node fuel 0 sys

/-- The rules that the passes of `wilRewriteSystemApplyToFixpoint` try. -/
def fixpointTries (fuel : Nat) : Nat → WILRewriteSystem → Option Nat → List RuleTry
  | 0, _, _ => []
  | iterations + 1, sys, root =>
    let sys := { sys with stats := { sys.stats with iterations := sys.stats.iterations + 1 } }
    passTries equivalent fuel sys root ++
      match wrsApplyRecursive equivalent fuel sys root with
      | some (sys, some replacement) => fixpointTries fuel iterations sys (some replacement)
      | _ => []

/-- The rules that the passes of `wilRewriteSystemNormalize` try. -/
def normalizeTries (fuel : Nat) : Nat → WILRewriteSystem → Option Nat → List RuleTry
  | 0, _, _ => []
  | iterations + 1, sys, current =>
    passTries equivalent fuel sys current ++
      match wrsApplyRecursive equivalent fuel sys current with
      | some (sys, some replacement) => normalizeTries fuel iterations sys (some replacement)
      | _ => []

-- The extraction from the e-graph is `wrs_normalize_with_egraph` in the source.
variable (extract : WILContext → Option Nat → Nat → Option (Option Nat))

/-- Calls of the engine, and what happens to a system between them. -/
inductive WRSCall where
  | applyRule (ruleName : String) (node : Option Nat)
  | applyAt (node : Option Nat)
  | apply (fuel : Nat) (root : Option Nat)
  | applyToFixpoint (fuel iterations : Nat) (root : Option Nat)
  | normalize (fuel maxIterations : Nat) (node : Option Nat)
  | setStrategy (strategy : WILRewriteStrategy)
  /-- The graph is edited through the interface of nodes. -/
  | edit (ctx : WILContext)

namespace WRSCall

/-- The rules that a call tries. -/
def tries (sys : WILRewriteSystem) : WRSCall → List RuleTry
  | applyRule ruleName node =>
    match wilRewriteSystemFindRule sys ruleName with
    | some rule => [⟨sys, rule, node⟩]
    | none => []
  | applyAt node => firstTries equivalent sys.rules sys node
  | apply fuel root => passTries equivalent fuel sys root
  | applyToFixpoint fuel iterations root => fixpointTries equivalent fuel iterations sys root
  | normalize fuel maxIterations node =>
    match extract sys.ctx node maxIterations with
    | some best => normalizeTries equivalent fuel maxIterations sys (best.or node)
    | none => []
  | setStrategy _ | edit _ => []

/-- The system after a call that returns. -/
def after (sys : WILRewriteSystem) : WRSCall → Option WILRewriteSystem
  | applyRule ruleName node => some (wilRewriteSystemApplyRule equivalent sys ruleName node).1
  | applyAt node => some (wilRewriteSystemApplyAt equivalent sys node).1
  | apply fuel root => wilRewriteSystemApply equivalent fuel sys root
  | applyToFixpoint fuel iterations root =>
    (wilRewriteSystemApplyToFixpoint equivalent fuel iterations sys root).map (·.1)
  | normalize fuel maxIterations node =>
    (wilRewriteSystemNormalize equivalent extract fuel sys node maxIterations).map (·.1)
  | setStrategy strategy => some { sys with strategy }
  | edit ctx => some { sys with ctx }

/-- The rules that calls try one after the other, up to a call that does not return. -/
def runTries : List WRSCall → WILRewriteSystem → List RuleTry
  | [], _ => []
  | call :: calls, sys =>
    call.tries equivalent extract sys ++
      match call.after equivalent extract sys with
      | some sys => runTries calls sys
      | none => []

end WRSCall

/-! What a rule with a condition may do. -/

-- What a condition says about a match is not fixed by the source.
variable (holds : WRSSExpr → WILContext → WILMatch → Prop)

/-- A try that replaces nothing and leaves its system alone. -/
def RuleTry.Quiet (attempt : RuleTry) : Prop :=
  wrsApplyRule equivalent attempt.sys attempt.rule attempt.node = (attempt.sys, none)

/-- If the rule has a condition and no match for which it holds, the try is quiet. -/
def RuleTry.Respects (attempt : RuleTry) : Prop :=
  ∀ guard, attempt.rule.guard = some guard →
    (∀ found, Matches equivalent attempt.sys.ctx attempt.rule attempt.node found →
      ¬ holds guard attempt.sys.ctx found) →
    attempt.Quiet equivalent

/-- A rule that matches has no condition, or one that holds for the match, or a right-hand side
that builds nothing. -/
def RuleTry.Harmless (attempt : RuleTry) : Prop :=
  ∀ guard, attempt.rule.guard = some guard →
    ∀ found, Matches equivalent attempt.sys.ctx attempt.rule attempt.node found →
      ¬ holds guard attempt.sys.ctx found → attempt.rule.rhs.idle found.substitution = true

variable {equivalent extract holds}

/-- A pattern matches a node in one way. -/
theorem Matches.unique {ctx : WILContext} {rule : WILRewriteRule} {node : Option Nat}
    {found other : WILMatch} (matched : Matches equivalent ctx rule node found)
    (again : Matches equivalent ctx rule node other) : other = found :=
  Option.some.inj (again.2.2.symm.trans matched.2.2)

/-- A rule with an idle right-hand side leaves the system alone. -/
theorem wrsApplyRule_idle {sys : WILRewriteSystem} {rule : WILRewriteRule} {node : Option Nat}
    (plain : rule.action = none)
    (idle : ∀ found, Matches equivalent sys.ctx rule node found →
      rule.rhs.idle found.substitution = true) :
    wrsApplyRule equivalent sys rule node = (sys, none) := by
  -- Without a match nothing happens; with one the right-hand side gives null and adds nothing.
  by_cases matched : ∃ found, Matches equivalent sys.ctx rule node found
  · obtain ⟨found, matched⟩ := matched
    obtain ⟨result, after, -⟩ := wrsApplyRule_matched plain matched
    have built := wrsApplyPattern_idle sys.ctx (idle found matched)
    rw [built] at result after
    exact Prod.ext (after rfl) result
  · exact wrsApplyRule_unmatched (not_exists.mp matched)

/-- One try respects a condition exactly if it is harmless. -/
theorem RuleTry.respects_iff {attempt : RuleTry}
    (plain : attempt.rule.guard.isSome = true → attempt.rule.action = none) :
    attempt.Respects equivalent holds ↔ attempt.Harmless equivalent holds := by
  constructor
  · intro respects guard guarded found matched fails
    have noAction := plain (by rw [guarded]; rfl)
    have alone := respects guard guarded fun other again => by
      rw [matched.unique again]
      exact fails
    obtain ⟨result, after, -⟩ := wrsApplyRule_matched noAction matched
    unfold Quiet at alone
    rw [alone] at result after
    -- A right-hand side that is not idle would leave a longer graph.
    apply Classical.byContradiction
    intro busy
    have grown := wrsApplyPattern_not_idle attempt.sys.ctx (by simpa using busy) result.symm
    have same := congrArg (fun sys : WILRewriteSystem => sys.ctx.graph.length)
      (after result.symm)
    dsimp only at same
    omega
  · intro harmless guard guarded fails
    apply wrsApplyRule_idle (plain (by rw [guarded]; rfl))
    intro found matched
    exact harmless guard guarded found matched (fails found matched)

/-! Calls keep the rules of a system, and try no others. -/

/-- Applying a rule keeps the rules. -/
theorem wrsApplyRule_rules (sys : WILRewriteSystem) (rule : WILRewriteRule) (node : Option Nat) :
    (wrsApplyRule equivalent sys rule node).1.rules = sys.rules := by
  unfold wrsApplyRule
  split
  · rfl
  · split
    · rfl
    · -- The replacement decides whether uses are redirected and counted.
      dsimp only
      split <;> rfl

/-- Applying the first rule that matches keeps the rules. -/
theorem applyFirst_rules (rules : List WILRewriteRule) :
    ∀ (sys : WILRewriteSystem) (node : Option Nat),
      (applyFirst equivalent rules sys node).1.rules = sys.rules := by
  -- The induction is on the rules that are tried.
  induction rules with
  | nil =>
    intro sys node
    rfl
  | cons rule rules ih =>
    intro sys node
    have kept : (wrsApplyRule equivalent sys rule node).1.rules = sys.rules :=
      wrsApplyRule_rules sys rule node
    -- A rule that fails leaves the rest to be tried, and one that applies ends it.
    unfold applyFirst
    split
    next middle made =>
      rw [made] at kept
      exact (ih middle node).trans kept
    next middle replacement made =>
      rw [made] at kept
      exact kept

/-- The loop over the inputs keeps the rules if each visit does. -/
theorem rewriteInputs_rules
    {recurse : WILRewriteSystem → Option Nat → Option (WILRewriteSystem × Option Nat)}
    (kept : ∀ {before node after}, recurse before node = some after →
      after.1.rules = before.rules) (node : Nat) :
    ∀ (fuel index : Nat) {sys sys' : WILRewriteSystem},
      rewriteInputs recurse node fuel index sys = some sys' → sys'.rules = sys.rules := by
  intro fuel
  induction fuel with
  | zero =>
    intro index sys sys' done
    exact nomatch done
  | succ fuel ih =>
    intro index sys sys' done
    unfold rewriteInputs at done
    split at done
    · split at done
      -- The visit of an input is followed by the rest of the loop.
      next => exact nomatch done
      next middle visited => exact (ih _ done).trans (kept visited)
      next middle replacement visited => exact (ih _ done).trans (kept visited)
    · rw [← Option.some.inj done]

/-- A pass keeps the rules. -/
theorem wrsApplyRecursive_rules : ∀ (fuel : Nat) {sys : WILRewriteSystem} {node : Option Nat}
    {after : WILRewriteSystem × Option Nat},
    wrsApplyRecursive equivalent fuel sys node = some after → after.1.rules = sys.rules := by
  -- The fuel bounds the depth, and the loop over the inputs takes the hypothesis for less of it.
  intro fuel
  induction fuel with
  | zero =>
    intro sys node after done
    exact nomatch done
  | succ fuel ih =>
    intro sys node after done
    cases node with
    | none =>
      rw [← Option.some.inj done]
    | some node =>
      have first : ∀ middle : WILRewriteSystem,
          (applyFirst equivalent middle.rules middle (some node)).1.rules = middle.rules :=
        fun middle => applyFirst_rules middle.rules middle (some node)
      unfold wrsApplyRecursive at done
      split at done
      -- Innermost: the loop keeps the rules, and then the application does.
      · obtain ⟨middle, below, at_⟩ := Option.map_eq_some_iff.mp done
        rw [← at_]
        exact (first middle).trans (rewriteInputs_rules ih node fuel 0 below)
      · have here := first sys
        -- Outermost: the application keeps the rules, and then the loop does.
        split at done
        next middle replacement made =>
          rw [← Option.some.inj done]
          unfold wilRewriteSystemApplyAt at made
          rw [made] at here
          exact here
        next middle made =>
          obtain ⟨last, below, at_⟩ := Option.map_eq_some_iff.mp done
          unfold wilRewriteSystemApplyAt at made
          rw [made] at here
          rw [← at_]
          exact (rewriteInputs_rules ih node fuel 0 below).trans here

/-- The passes to a fixpoint keep the rules. -/
theorem wilRewriteSystemApplyToFixpoint_rules {fuel : Nat} :
    ∀ (iterations : Nat) {sys : WILRewriteSystem} {root : Option Nat}
      {after : WILRewriteSystem × Option Nat},
      wilRewriteSystemApplyToFixpoint equivalent fuel iterations sys root = some after →
      after.1.rules = sys.rules := by
  -- The induction is on the iterations, of which each one is a pass.
  intro iterations
  induction iterations with
  | zero =>
    intro sys root after done
    rw [← Option.some.inj done]
  | succ iterations ih =>
    intro sys root after done
    unfold wilRewriteSystemApplyToFixpoint at done
    dsimp only at done
    split at done
    next => exact nomatch done
    -- The last iteration is a pass that returned nothing.
    next middle visited =>
      have kept := wrsApplyRecursive_rules fuel visited
      rw [← Option.some.inj done]
      exact kept
    next middle replacement visited =>
      have kept := wrsApplyRecursive_rules fuel visited
      exact (ih done).trans kept

/-- The passes of the normalizer keep the rules. -/
theorem normalizeLoop_rules {fuel : Nat} :
    ∀ (iterations : Nat) {sys : WILRewriteSystem} {current : Option Nat}
      {after : WILRewriteSystem × Option Nat × LoopExit},
      normalizeLoop equivalent fuel iterations sys current = some after →
      after.1.rules = sys.rules := by
  -- The induction is on the iterations, of which each one is a pass.
  intro iterations
  induction iterations with
  | zero =>
    intro sys current after done
    rw [← Option.some.inj done]
  | succ iterations ih =>
    intro sys current after done
    unfold normalizeLoop at done
    -- The pass keeps the rules, and the iterations behind it do.
    split at done
    next => exact nomatch done
    next middle visited =>
      rw [← Option.some.inj done]
      exact wrsApplyRecursive_rules fuel visited
    next middle replacement visited =>
      exact (ih done).trans (wrsApplyRecursive_rules fuel visited)

/-- Every call keeps the rules. -/
theorem WRSCall.after_rules {call : WRSCall} {sys sys' : WILRewriteSystem}
    (done : call.after equivalent extract sys = some sys') : sys'.rules = sys.rules := by
  -- There is one case for each call.
  cases call with
  -- A rule is tried at the node, or no rule has that name.
  | applyRule ruleName node =>
    rw [← Option.some.inj done]
    unfold wilRewriteSystemApplyRule
    split
    · exact wrsApplyRule_rules sys _ node
    · rfl
  -- The other calls are passes and loops of passes.
  | applyAt node =>
    rw [← Option.some.inj done]
    exact applyFirst_rules sys.rules sys node
  | apply fuel root =>
    obtain ⟨after, visited, same⟩ := Option.map_eq_some_iff.mp done
    rw [← same]
    exact wrsApplyRecursive_rules fuel visited
  | applyToFixpoint fuel iterations root =>
    obtain ⟨after, visited, same⟩ := Option.map_eq_some_iff.mp done
    rw [← same]
    exact wilRewriteSystemApplyToFixpoint_rules iterations visited
  | normalize fuel maxIterations node =>
    obtain ⟨after, visited, same⟩ := Option.map_eq_some_iff.mp done
    obtain ⟨best, -, looped⟩ := Option.bind_eq_some_iff.mp visited
    rw [← same]
    exact normalizeLoop_rules maxIterations looped
  | setStrategy strategy | edit ctx =>
    rw [← Option.some.inj done]

/-- Only rules of the list are tried. -/
theorem firstTries_rules : ∀ (rules : List WILRewriteRule) (sys : WILRewriteSystem)
    (node : Option Nat), ∀ attempt ∈ firstTries equivalent rules sys node,
      attempt.rule ∈ rules := by
  -- The induction is on the rules that are tried.
  intro rules
  induction rules with
  | nil =>
    intro sys node attempt tried
    exact nomatch tried
  | cons rule rules ih =>
    intro sys node attempt tried
    unfold firstTries at tried
    -- The attempt is the one at the first rule, or a later one.
    cases List.mem_cons.mp tried with
    | inl now =>
      rw [now]
      exact List.mem_cons_self
    | inr later =>
      apply List.mem_cons_of_mem
      split at later
      next middle made => exact ih middle node attempt later
      next middle replacement made => exact nomatch later

/-- The loop over the inputs tries the rules that the visits try. -/
theorem inputTries_rules
    {recurse : WILRewriteSystem → Option Nat → Option (WILRewriteSystem × Option Nat)}
    {recurseTries : WILRewriteSystem → Option Nat → List RuleTry}
    (kept : ∀ {before node after}, recurse before node = some after →
      after.1.rules = before.rules)
    (inner : ∀ (before : WILRewriteSystem) (node : Option Nat),
      ∀ attempt ∈ recurseTries before node, attempt.rule ∈ before.rules) (node : Nat) :
    ∀ (fuel index : Nat) (sys : WILRewriteSystem),
      ∀ attempt ∈ inputTries recurse recurseTries node fuel index sys,
        attempt.rule ∈ sys.rules := by
  intro fuel
  induction fuel with
  | zero =>
    intro index sys attempt tried
    exact nomatch tried
  | succ fuel ih =>
    intro index sys attempt tried
    unfold inputTries at tried
    split at tried
    · cases List.mem_append.mp tried with
      | inl now => exact inner sys _ attempt now
      | inr later =>
        -- A visit of an input leaves the rules for the later inputs.
        split at later
        next => exact nomatch later
        next middle visited =>
          rw [← kept visited]
          exact ih _ middle attempt later
        next middle replacement visited =>
          have tried := ih _ _ attempt later
          dsimp only at tried
          rw [kept visited] at tried
          exact tried
    · exact nomatch tried

/-- A pass tries the rules of the system. -/
theorem passTries_rules : ∀ (fuel : Nat) (sys : WILRewriteSystem) (node : Option Nat),
    ∀ attempt ∈ passTries equivalent fuel sys node, attempt.rule ∈ sys.rules := by
  -- The strategy decides whether the inputs come first, and the attempts are the same.
  intro fuel
  induction fuel with
  | zero =>
    intro sys node attempt tried
    exact nomatch tried
  | succ fuel ih =>
    intro sys node attempt tried
    cases node with
    | none => exact nomatch tried
    | some node =>
      have below := @inputTries_rules (wrsApplyRecursive equivalent fuel) _
        (wrsApplyRecursive_rules fuel) ih node
      unfold passTries at tried
      split at tried
      -- The attempts at the inputs come first.
      · cases List.mem_append.mp tried with
        | inl now => exact below fuel 0 sys attempt now
        | inr later =>
          split at later
          next => exact nomatch later
          next middle visited =>
            rw [← rewriteInputs_rules (wrsApplyRecursive_rules fuel) node fuel 0 visited]
            exact firstTries_rules middle.rules middle _ attempt later
      -- Here the attempts at the node come first.
      · cases List.mem_append.mp tried with
        | inl now => exact firstTries_rules sys.rules sys _ attempt now
        | inr later =>
          have first : (applyFirst equivalent sys.rules sys (some node)).1.rules = sys.rules :=
            applyFirst_rules sys.rules sys (some node)
          split at later
          next => exact nomatch later
          next middle made =>
            unfold wilRewriteSystemApplyAt at made
            rw [made] at first
            rw [← first]
            exact below fuel 0 middle attempt later

/-- Only rules of the system are tried in a call. -/
theorem fixpointTries_rules {fuel : Nat} : ∀ (iterations : Nat) (sys : WILRewriteSystem)
    (root : Option Nat), ∀ attempt ∈ fixpointTries equivalent fuel iterations sys root,
      attempt.rule ∈ sys.rules := by
  -- Later iterations try the rules of a system that the first one left.
  intro iterations
  induction iterations with
  | zero =>
    intro sys root attempt tried
    exact nomatch tried
  | succ iterations ih =>
    intro sys root attempt tried
    unfold fixpointTries at tried
    dsimp only at tried
    cases List.mem_append.mp tried with
    | inl now =>
      have tried := passTries_rules fuel _ root attempt now
      exact tried
    | inr later =>
      split at later
      -- What the first pass leaves has the same rules.
      next middle replacement visited =>
        have kept := wrsApplyRecursive_rules fuel visited
        have tried := ih middle (some replacement) attempt later
        rw [kept] at tried
        exact tried
      next => exact nomatch later

/-- Only rules of the system are tried while normalising. -/
theorem normalizeTries_rules {fuel : Nat} : ∀ (iterations : Nat) (sys : WILRewriteSystem)
    (current : Option Nat), ∀ attempt ∈ normalizeTries equivalent fuel iterations sys current,
      attempt.rule ∈ sys.rules := by
  -- Later iterations try the rules of a system that the first one left.
  intro iterations
  induction iterations with
  | zero =>
    intro sys current attempt tried
    exact nomatch tried
  | succ iterations ih =>
    intro sys current attempt tried
    unfold normalizeTries at tried
    cases List.mem_append.mp tried with
    | inl now => exact passTries_rules fuel sys current attempt now
    | inr later =>
      -- A pass that replaced the node is followed by others.
      split at later
      next middle replacement visited =>
        rw [← wrsApplyRecursive_rules fuel visited]
        exact ih middle (some replacement) attempt later
      next => exact nomatch later

/-- A call tries the rules of its system. -/
theorem WRSCall.tries_rules {sys : WILRewriteSystem} (call : WRSCall) :
    ∀ attempt ∈ call.tries equivalent extract sys, attempt.rule ∈ sys.rules := by
  -- There is one case for each call.
  intro attempt tried
  cases call with
  | applyRule ruleName node =>
    -- The call tries the rule of that name only.
    unfold tries at tried
    dsimp only at tried
    split at tried
    next rule found =>
      rw [List.mem_singleton.mp tried]
      exact List.mem_of_find?_eq_some found
    next => exact nomatch tried
  | applyAt node => exact firstTries_rules sys.rules sys node attempt tried
  | apply fuel root => exact passTries_rules fuel sys root attempt tried
  | applyToFixpoint fuel iterations root =>
    exact fixpointTries_rules iterations sys root attempt tried
  | normalize fuel maxIterations node =>
    unfold tries at tried
    dsimp only at tried
    split at tried
    next best extracted => exact normalizeTries_rules maxIterations sys _ attempt tried
    next => exact nomatch tried
  | setStrategy strategy | edit ctx => exact nomatch tried

/-- Calls try the rules of the system they start with. -/
theorem WRSCall.runTries_rules : ∀ (calls : List WRSCall) (sys : WILRewriteSystem),
    ∀ attempt ∈ runTries equivalent extract calls sys, attempt.rule ∈ sys.rules := by
  -- The induction is on the calls, of which each one keeps the rules.
  intro calls
  induction calls with
  | nil =>
    intro sys attempt tried
    exact nomatch tried
  | cons call calls ih =>
    intro sys attempt tried
    unfold runTries at tried
    -- An attempt belongs to the first call or to the later ones.
    cases List.mem_append.mp tried with
    | inl now => exact call.tries_rules attempt now
    | inr later =>
      split at later
      next middle done =>
        rw [← WRSCall.after_rules done]
        exact ih middle attempt later
      next => exact nomatch later

/-! A system changes by what its tries do, and by nothing else. -/

/-- The loaded rules of a system are respected in a run exactly if each of them that is tried is
harmless: its condition holds for the match, or its right-hand side builds nothing. -/
theorem wrsCalls_respect_guards_iff
    (equivalent : WILContext → Option Nat → Option Nat → Bool)
    (extract : WILContext → Option Nat → Nat → Option (Option Nat))
    (holds : WRSSExpr → WILContext → WILMatch → Prop) (calls : List WRSCall)
    (sys : WILRewriteSystem) :
    (∀ rule ∈ sys.rules, LoadedRule rule →
      ∀ attempt ∈ WRSCall.runTries equivalent extract calls sys, attempt.rule = rule →
        attempt.Respects equivalent holds) ↔
    ∀ attempt ∈ WRSCall.runTries equivalent extract calls sys, LoadedRule attempt.rule →
      attempt.Harmless equivalent holds := by
  constructor
  -- An attempt of a loaded rule is one with a rule of the system.
  · intro respected attempt tried loaded
    have member := WRSCall.runTries_rules calls sys attempt tried
    apply (RuleTry.respects_iff fun _ => loaded.plain).mp
    exact respected attempt.rule member loaded attempt tried rfl
  · intro harmless rule _ loaded attempt tried same
    rw [← same] at loaded
    apply (RuleTry.respects_iff fun _ => loaded.plain).mpr
    exact harmless attempt tried loaded

end Tries

/-- `(rule :name never :match (neg ?x) :replace ?x :when false)`. -/
def neverForm : Node :=
  .list [.atom .bare "rule".toList,
    .atom .bare ":name".toList, .atom .bare "never".toList,
    .atom .bare ":match".toList,
    .list [.atom .bare "neg".toList, .atom .bare "?x".toList],
    .atom .bare ":replace".toList, .atom .bare "?x".toList,
    .atom .bare ":when".toList, .atom .bare "false".toList]

/-- The rule of the form, whose condition is the constant false. -/
def neverRule : WILRewriteRule :=
  { wilRuleCreateSimple "never" (.node .neg [wilPatVar "x"]) (wilPatVar "x") with
    guard := some (.atom "false".toList) }

/-- The form with a guard that is never true is loaded. -/
theorem wrsRuleFromTree_never (strtod : List Char → BitVec 64) :
    wrsRuleFromTree strtod neverForm = some neverRule := rfl

/-- A rule whose condition is the constant false replaces a negation. -/
theorem wrsCalls_ignore_guards :
    ¬ ∀ (equivalent : WILContext → Option Nat → Option Nat → Bool)
      (extract : WILContext → Option Nat → Nat → Option (Option Nat))
      (holds : WRSSExpr → WILContext → WILMatch → Prop),
      (∀ ctx found, ¬ holds (.atom "false".toList) ctx found) →
      ∀ (calls : List WRSCall) (sys : WILRewriteSystem), ∀ rule ∈ sys.rules, LoadedRule rule →
        ∀ attempt ∈ WRSCall.runTries equivalent extract calls sys, attempt.rule = rule →
          attempt.Respects equivalent holds := by
  intro claimed
  have loaded : LoadedRule neverRule :=
    ⟨fun _ => 0, neverForm, neverRule, wrsRuleFromTree_never _, rfl⟩
  have respects := claimed (fun _ _ _ => false) (fun _ _ _ => none) (fun _ _ _ => False)
    (fun _ _ => id) [.applyAt (some 1)] (negatedSystem neverRule) neverRule
    (List.mem_singleton.mpr rfl) loaded ⟨negatedSystem neverRule, neverRule, some 1⟩
    (List.mem_cons_self) rfl
  have quiet := respects _ rfl fun _ _ => id
  -- The negation is replaced by its operand.
  have replaced := congrArg Prod.snd quiet
  exact nomatch (show some 0 = none from replaced)

end Wirble
