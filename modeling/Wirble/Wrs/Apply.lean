import Wirble.Wrs.Match

/-! Applying rules to graphs: one step, one pass, and the two fixpoint loops. -/

namespace Wirble

/-- Count one application of a rule. -/
def WILRewriteStats.count (stats : WILRewriteStats) (statsIndex : Nat) : WILRewriteStats :=
  { stats with
    totalRewrites := stats.totalRewrites + 1
    rulesApplied :=
      if statsIndex < 256 then stats.rulesApplied.modify statsIndex (· + 1)
      else stats.rulesApplied }

section Engine

-- The test of repeated variables is `wrs_nodes_equivalent` in the source.
variable (equivalent : WILContext → Option Nat → Option Nat → Bool)

/-- Match one rule at a node, build the replacement and redirect every use to it. -/
def wrsApplyRule (sys : WILRewriteSystem) (rule : WILRewriteRule) (node : Option Nat) :
    WILRewriteSystem × Option Nat :=
  if node.isNone || !rule.enabled then (sys, none)
  else
    match wilPatternMatch equivalent sys.ctx rule.lhs node with
    | none => (sys, none)
    | some found =>
      let (ctx, replacement) :=
        match rule.action with
        | some action => action sys.ctx found
        | none => wilSubstitutionApply sys.ctx found.substitution rule.rhs
      match replacement with
      | none => ({ sys with ctx }, none)
      | some _ =>
        ({ sys with
            ctx := wilNodeReplaceAllUses ctx node replacement
            stats := sys.stats.count rule.statsIndex },
          replacement)

/-- Try rules in order until one returns a replacement. -/
def applyFirst : List WILRewriteRule → WILRewriteSystem → Option Nat →
    WILRewriteSystem × Option Nat
  | [], sys, _ => (sys, none)
  | rule :: rules, sys, node =>
    match wrsApplyRule equivalent sys rule node with
    | (sys, none) => applyFirst rules sys node
    | (sys, some replacement) => (sys, some replacement)

/-- `wilRewriteSystemApplyAt`. -/
def wilRewriteSystemApplyAt (sys : WILRewriteSystem) (node : Option Nat) :
    WILRewriteSystem × Option Nat :=
  applyFirst equivalent sys.rules sys node

/-- The loop over the inputs of a node, from the given slot on, as far as the fuel allows. -/
def rewriteInputs
    (recurse : WILRewriteSystem → Option Nat → Option (WILRewriteSystem × Option Nat))
    (node : Nat) : Nat → Nat → WILRewriteSystem → Option WILRewriteSystem
  | 0, _, _ => none
  | fuel + 1, index, sys =>
    -- The slot count is read again in every round.
    if index < sys.ctx.inputCount node then
      match recurse sys (sys.ctx.inputAt node index) with
      | none => none
      | some (sys, none) => rewriteInputs recurse node fuel (index + 1) sys
      | some (sys, some replacement) =>
        rewriteInputs recurse node fuel (index + 1)
          { sys with ctx := wilNodeReplaceInput sys.ctx node index (some replacement) }
    else some sys

/-- One pass over the graph below a node, nothing when the fuel does not suffice. -/
def wrsApplyRecursive : Nat → WILRewriteSystem → Option Nat →
    Option (WILRewriteSystem × Option Nat)
  | 0, _, _ => none
  | _ + 1, sys, none => some (sys, none)
  | fuel + 1, sys, some node =>
    if sys.strategy = .innermost then
      (rewriteInputs (wrsApplyRecursive fuel) node fuel 0 sys).map fun sys =>
        wilRewriteSystemApplyAt equivalent sys (some node)
    else
      match wilRewriteSystemApplyAt equivalent sys (some node) with
      | (sys, some replacement) => some (sys, some replacement)
      | (sys, none) =>
        (rewriteInputs (wrsApplyRecursive fuel) node fuel 0 sys).map fun sys => (sys, none)

/-- `wilRewriteSystemApply`: a single pass whose result is dropped. -/
def wilRewriteSystemApply (fuel : Nat) (sys : WILRewriteSystem) (root : Option Nat) :
    Option WILRewriteSystem :=
  (wrsApplyRecursive equivalent fuel sys root).map (·.1)

/-- The loop of `wilRewriteSystemApplyToFixpoint`, with the current root, which the source drops. -/
def wilRewriteSystemApplyToFixpoint (fuel : Nat) :
    Nat → WILRewriteSystem → Option Nat → Option (WILRewriteSystem × Option Nat)
  | 0, sys, root => some (sys, root)
  | iterations + 1, sys, root =>
    let sys := { sys with stats := { sys.stats with iterations := sys.stats.iterations + 1 } }
    match wrsApplyRecursive equivalent fuel sys root with
    | none => none
    | some (sys, none) =>
      some ({ sys with stats :=
        { sys.stats with normalFormsReached := sys.stats.normalFormsReached + 1 } }, root)
    | some (sys, some replacement) =>
      wilRewriteSystemApplyToFixpoint fuel iterations sys (some replacement)

/-- No enabled rule matches the node. -/
def wilRewriteSystemIsNormalForm (sys : WILRewriteSystem) (node : Option Nat) : Bool :=
  node.isNone || sys.rules.all fun rule =>
    !rule.enabled || (wilPatternMatch equivalent sys.ctx rule.lhs node).isNone

/-- No enabled rule matches below the node, visiting every path as far as the fuel allows. -/
def wilRewriteSystemIsGraphNormalForm (sys : WILRewriteSystem) : Nat → Option Nat → Option Bool
  | 0, _ => none
  | _ + 1, none => some true
  | fuel + 1, some node =>
    if wilRewriteSystemIsNormalForm equivalent sys (some node) then
      allNormal (wilRewriteSystemIsGraphNormalForm sys fuel) (sys.ctx.targets node)
    else some false
where
  /-- The loop over the inputs, left at the first one that is not in normal form. -/
  allNormal (test : Option Nat → Option Bool) : List (Option Nat) → Option Bool
    | [] => some true
    | input :: rest =>
      match test input with
      | some true => allNormal test rest
      | other => other

/-- How the loop of `wilRewriteSystemNormalize` ends. -/
inductive LoopExit where
  /-- A pass returned no replacement. -/
  | stopped
  /-- All passes were made. -/
  | exhausted
  deriving DecidableEq, Repr

/-- The loop of `wilRewriteSystemNormalize`. -/
def normalizeLoop (fuel : Nat) : Nat → WILRewriteSystem → Option Nat →
    Option (WILRewriteSystem × Option Nat × LoopExit)
  | 0, sys, current => some (sys, current, .exhausted)
  | iterations + 1, sys, current =>
    match wrsApplyRecursive equivalent fuel sys current with
    | none => none
    | some (sys, none) => some (sys, current, .stopped)
    | some (sys, some replacement) => normalizeLoop fuel iterations sys (some replacement)

/-- `wilRewriteSystemNormalize`, where `extract` is `wrs_normalize_with_egraph`. -/
def wilRewriteSystemNormalize (extract : WILContext → Option Nat → Nat → Option (Option Nat))
    (fuel : Nat) (sys : WILRewriteSystem) (node : Option Nat) (maxIterations : Nat) :
    Option (WILRewriteSystem × Option Nat × LoopExit) :=
  (extract sys.ctx node maxIterations).bind fun best =>
    normalizeLoop equivalent fuel maxIterations sys (best.or node)

end Engine

end Wirble
