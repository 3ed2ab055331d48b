import Wirble.Wrs.EquinoxTerms
import Wirble.Wrs.Guards
import Wirble.Wrs.Preserve
import Wirble.Wrs.Termination

/-! When the loops over whole passes end in a normal form. -/

namespace Wirble

open WILContext

section NormalForm

variable {equivalent : WILContext → Option Nat → Option Nat → Bool}
  {sys sys' : WILRewriteSystem}

variable (equivalent) in
/-- No enabled rule matches any node below the pointer. -/
def GraphNormal (sys : WILRewriteSystem) (pointer : Option Nat) : Prop :=
  ∀ node, Dag.Reach sys.ctx.succ pointer (some node) →
    wilRewriteSystemIsNormalForm equivalent sys (some node) = true

/-- What is below an input is below the node. -/
theorem GraphNormal.input {node : Nat} (normal : GraphNormal equivalent sys (some node))
    {input : Option Nat} (member : input ∈ sys.ctx.targets node) :
    GraphNormal equivalent sys input :=
  fun other path => normal other (.head member path)

/-- All inputs pass the test exactly if each of them does. -/
theorem allNormal_true {test : Option Nat → Option Bool} {inputs : List (Option Nat)} :
    wilRewriteSystemIsGraphNormalForm.allNormal test inputs = some true ↔
      ∀ input ∈ inputs, test input = some true := by
  induction inputs with
  | nil => simp [wilRewriteSystemIsGraphNormalForm.allNormal]
  | cons input rest next =>
    rw [wilRewriteSystemIsGraphNormalForm.allNormal]
    -- The loop goes on only after a positive answer.
    split
    · rename_i positive
      simp [positive, next]
    · rename_i negative
      exact ⟨fun positive => absurd positive negative,
        fun all => absurd (all input (.head _)) negative⟩

/-- A test that has ended ends the same way with more fuel. -/
theorem isGraphNormalForm_more {fuel : Nat} {pointer : Option Nat}
    (tested : wilRewriteSystemIsGraphNormalForm equivalent sys fuel pointer = some true)
    {more : Nat} (enough : fuel ≤ more) :
    wilRewriteSystemIsGraphNormalForm equivalent sys more pointer = some true := by
  induction fuel generalizing pointer more with
  | zero => simp [wilRewriteSystemIsGraphNormalForm] at tested
  | succ fuel next =>
    -- More fuel than some is more than none.
    obtain ⟨more, rfl⟩ : ∃ rest, more = rest + 1 := ⟨more - 1, by omega⟩
    cases pointer with
    | none => rfl
    | some node =>
      rw [wilRewriteSystemIsGraphNormalForm] at tested ⊢
      split at tested
      · rename_i normal
        rw [if_pos normal, allNormal_true]
        intro input member
        -- The inputs are tested with one unit less on both sides.
        exact next (allNormal_true.mp tested input member) (Nat.le_of_succ_le_succ enough)
      · simp at tested

/-- On a grounded graph in normal form the test answers, and positively. -/
theorem GraphNormal.test (grounded : Dag.Grounded sys.ctx.succ) {pointer : Option Nat}
    (normal : GraphNormal equivalent sys pointer) :
    ∃ fuel, wilRewriteSystemIsGraphNormalForm equivalent sys fuel pointer = some true := by
  induction pointer using grounded.induction with
  | _ pointer next =>
    cases pointer with
    | none => exact ⟨1, rfl⟩
    | some node =>
      -- One amount of fuel is enough for all inputs, of which there are finitely many.
      obtain ⟨fuel, tested⟩ := Dag.exists_common_bound
        (fun fuel input => wilRewriteSystemIsGraphNormalForm equivalent sys fuel input = some true)
        (fun enough tested => isGraphNormalForm_more tested enough)
        fun input member => next input member (normal.input member)
      refine ⟨fuel + 1, ?_⟩
      rw [wilRewriteSystemIsGraphNormalForm, if_pos (normal node .refl), allNormal_true]
      exact tested

/-! Passes that apply no rule. -/

/-- The node that a try returns, if its rule applies. -/
def RuleTry.replacement (equivalent : WILContext → Option Nat → Option Nat → Bool)
    (attempt : RuleTry) : Option Nat :=
  (wrsApplyRule equivalent attempt.sys attempt.rule attempt.node).2

variable (equivalent) in
/-- No rule of the system does anything at the nodes below a pointer. -/
def Untouched (sys : WILRewriteSystem) (pointer : Option Nat) : Prop :=
  ∀ node, Dag.Reach sys.ctx.succ pointer (some node) →
    ∀ rule ∈ sys.rules, wrsApplyRule equivalent sys rule (some node) = (sys, none)

/-- A simple right-hand side builds a node, unless it is a variable bound to the null pointer. -/
theorem wrsApplyPattern_some {pattern : WILPattern} {subst : WILSubstitution} (ctx : WILContext)
    (simple : pattern.simple = true)
    (bound : ∀ name ∈ pattern.vars, ∃ ref, wilSubstitutionLookup subst (some name) = some ref) :
    ∃ replacement, (wrsApplyPattern subst pattern ctx).2 = some replacement := by
  -- Only a variable may stand for the null pointer; everything else creates its node.
  cases pattern with
  | var name =>
    cases name with
    | none => simp [WILPattern.simple] at simple
    | some name => exact bound name (by simp [WILPattern.vars])
  | constInt value => exact ⟨_, rfl⟩
  | constBool value => exact ⟨_, rfl⟩
  | node kind inputs =>
    simp only [WILPattern.simple, Bool.and_eq_true, decide_eq_true_eq] at simple
    obtain ⟨type, slots, -, result⟩ := wrsApplyPattern_node subst simple.1 ctx
    exact ⟨_, by rw [result]⟩
  | _ => simp [WILPattern.simple] at simple

/-- The right-hand side of no rule is a bare variable, which builds nothing if it is bound to the null
pointer. -/
def NoBareVariable (rules : List WILRewriteRule) : Prop :=
  ∀ rule ∈ rules, ∀ name, rule.rhs ≠ .var name

/-- A simple rule that matches builds a replacement, unless it could hand on a null slot. -/
theorem SimpleRule.builds {rule : WILRewriteRule} (simple : SimpleRule rule)
    (filled : NoNullInput sys.ctx ∨ ∀ name, rule.rhs ≠ .var name) {node : Nat} {found : WILMatch}
    (matched : wilPatternMatch equivalent sys.ctx rule.lhs (some node) = some found) :
    ∃ replacement,
      (wilSubstitutionApply sys.ctx found.substitution rule.rhs).2 = some replacement := by
  rcases filled with nonNull | operator
  · refine wrsApplyPattern_some sys.ctx simple.rhs fun name inRhs => ?_
    exact wilPatternMatch_present (nonNull.inputsPresent node) matched name (simple.vars name inRhs)
  · -- Every other simple pattern is a constant or an operator.
    have rhs := simple.rhs
    cases shape : rule.rhs with
    | var name => exact absurd shape (operator name)
    | constInt | constBool => exact ⟨_, rfl⟩
    | node kind inputs =>
      rw [shape] at rhs
      simp only [WILPattern.simple, Bool.and_eq_true, decide_eq_true_eq] at rhs
      obtain ⟨type, slots, -, result⟩ := wrsApplyPattern_node found.substitution rhs.1 sys.ctx
      exact ⟨_, by rw [wilSubstitutionApply, result]⟩
    | _ =>
      rw [shape] at rhs
      cases rhs

/-- Nodes that no rule does anything at are in normal form. -/
theorem Untouched.normal (simple : ∀ rule ∈ sys.rules, SimpleRule rule)
    (filled : NoNullInput sys.ctx ∨ NoBareVariable sys.rules) {pointer : Option Nat}
    (untouched : Untouched equivalent sys pointer) : GraphNormal equivalent sys pointer := by
  intro node path
  rw [wilRewriteSystemIsNormalForm, Bool.or_eq_true, List.all_eq_true]
  refine .inr fun rule member => ?_
  have tried := untouched node path rule member
  have simpleRule := simple rule member
  cases enabled : rule.enabled with
  | false => rfl
  | true =>
    cases matched : wilPatternMatch equivalent sys.ctx rule.lhs (some node) with
    | none => rfl
    | some found =>
      -- The rule matches, so it would have built a replacement.
      obtain ⟨replacement, built⟩ :=
        simpleRule.builds (filled.imp_right fun bare => bare rule member) matched
      simp [wrsApplyRule, enabled, matched, simpleRule.action, built] at tried

/-- The shape of a graph, an interpretation with a single value. -/
def shapeInterp : WILInterp Unit where
  null := ()
  constInt _ _ := ()
  constFloat _ _ := ()
  constBool _ := ()
  param _ := ()
  operator _ _ := ()
  other _ _ := ()

/-- The shapes of graphs are strict: every operand has one. -/
theorem strict_shape : Strict shapeInterp fun _ => True where
  operator _ _ _ _ _ _ := trivial
  other _ _ _ _ _ := trivial
  constant _ _ _ := rfl

/-- Comparing nodes keeps shapes, since there is one shape only. -/
theorem soundEquivalence_shape (equivalent : WILContext → Option Nat → Option Nat → Bool) :
    SoundEquivalence shapeInterp equivalent :=
  fun _ _ _ _ _ _ => rfl

/-! Passes leave no null slots behind. -/

/-- A step of a simple rule stores no null pointer where there was none. -/
theorem RuleStep.present {before middle after : WILContext} {rule : WILRewriteRule}
    {node replacement : Nat} {subst : WILSubstitution}
    (step : RuleStep equivalent before rule node replacement subst middle after)
    (present : NoNullInput before) : NoNullInput after := by
  rw [step.after]
  refine NoNullInput.replaceAllUses (fun user member => ?_) step.built.consistent node replacement
  rcases Nat.lt_or_ge user before.graph.length with old | new
  · rw [step.built.targets user old] at member
    exact present user member
  · -- A fresh node points at what lies below the matched one, or at another fresh node.
    rcases step.built.fresh user new none member with path | ⟨earlier, impossible, -⟩
    · obtain ⟨holder, -, edge⟩ := Relation.TransGen.tail'_iff.mp path
      cases holder with
      | none => simp [Dag.Edge, succ] at edge
      | some holder => exact present holder edge
    · cases impossible

/-- Applying a rule at a node stores no null pointer where there was none. -/
theorem wilRewriteSystemApplyAt_present {node : Nat} {result : Option Nat}
    (ready : Ready shapeInterp (fun _ => True) sys (some node)) (present : NoNullInput sys.ctx)
    (applied : wilRewriteSystemApplyAt equivalent sys (some node) = (sys', result)) :
    NoNullInput sys'.ctx := by
  have simple : ∀ rule ∈ sys.rules, SimpleRule rule := fun rule member =>
    (ready.rules rule member).1
  cases result with
  -- Without a rule nothing is stored, and with one the replacement is a node.
  | none =>
    rw [wilRewriteSystemApplyAt_none simple applied]
    exact present
  | some replacement =>
    obtain ⟨-, -, rule, -, -, subst, middle, step⟩ :=
      wilRewriteSystemApplyAt_some simple ready.consistent applied
    exact step.present present

/-- Rewriting the inputs stores no null pointer where the recursion stores none. -/
theorem rewriteInputs_present
    {recurse : WILRewriteSystem → Option Nat → Option (WILRewriteSystem × Option Nat)}
    (recursed : ∀ {sys pointer sys' result}, Ready shapeInterp (fun _ => True) sys pointer →
      recurse sys pointer = some (sys', result) →
      Rewrites shapeInterp sys pointer sys' result ∧ (NoNullInput sys.ctx → NoNullInput sys'.ctx))
    {node : Nat} (fuel index : Nat) (ready : Ready shapeInterp (fun _ => True) sys (some node))
    (looped : rewriteInputs recurse node fuel index sys = some sys') (present : NoNullInput sys.ctx) :
    NoNullInput sys'.ctx := by
  -- Induction on the rounds: what a visit returns is a node, which is stored in the slot.
  induction fuel generalizing index sys with
  | zero => cases looped
  | succ fuel next =>
    rw [rewriteInputs] at looped
    split at looped
    · rename_i valid
      cases round : recurse sys (sys.ctx.inputAt node index) with
      | none => simp [round] at looped
      | some outcome =>
        obtain ⟨middle, result⟩ := outcome
        -- The visit leaves a ready system, in which the loop goes on.
        obtain ⟨rewritten, kept⟩ := recursed (ready.input strict_shape valid) round
        cases result with
        | none =>
          simp only [round] at looped
          exact next (index + 1) (ready.after rewritten.evolves rewritten.rules) looped
            (kept present)
        | some replacement =>
          simp only [round] at looped
          -- Otherwise the replacement is stored in the slot.
          have stored := rewritten.evolves.replaceInput ready.grounded (ready.inside node rfl)
            (rewritten.inside replacement rfl) (rewritten.below replacement rfl)
            (rewritten.value replacement rfl)
          let updated : WILRewriteSystem := { middle with
            ctx := wilNodeReplaceInput middle.ctx node index (some replacement) }
          have later : Ready shapeInterp (fun _ => True) updated (some node) :=
            ready.after stored rewritten.rules
          exact next (index + 1) later looped ((kept present).replaceInput node index replacement)
    · cases looped
      exact present

/-- A pass over a graph without null slots leaves such a graph. -/
theorem wrsApplyRecursive_present (fuel : Nat) {pointer result : Option Nat}
    (ready : Ready shapeInterp (fun _ => True) sys pointer)
    (passed : wrsApplyRecursive equivalent fuel sys pointer = some (sys', result))
    (present : NoNullInput sys.ctx) : NoNullInput sys'.ctx := by
  induction fuel generalizing sys sys' pointer result with
  | zero => cases passed
  | succ fuel next =>
    cases pointer with
    | none =>
      cases passed
      exact present
    | some node =>
      -- Visits of the inputs rewrite as passes do, and keep the slots filled by induction.
      have visits : ∀ {sys pointer sys' result}, Ready shapeInterp (fun _ => True) sys pointer →
          wrsApplyRecursive equivalent fuel sys pointer = some (sys', result) →
          Rewrites shapeInterp sys pointer sys' result ∧
            (NoNullInput sys.ctx → NoNullInput sys'.ctx) :=
        fun ready visited => ⟨wrsApplyRecursive_rewrites strict_shape
          (soundEquivalence_shape equivalent) fuel ready visited, next ready visited⟩
      -- Either order visits the inputs and applies the rules at the node.
      rw [wrsApplyRecursive] at passed
      split at passed
      · obtain ⟨middle, looped, applied⟩ := Option.map_eq_some_iff.mp passed
        obtain ⟨evolves, rules⟩ := rewriteInputs_evolves strict_shape
          (fun ready visited => (visits ready visited).1) fuel 0 ready looped
        exact wilRewriteSystemApplyAt_present (ready.after evolves rules)
          (rewriteInputs_present visits fuel 0 ready looped present) applied
      · cases tried : wilRewriteSystemApplyAt equivalent sys (some node) with
        | mk middle outcome =>
          -- An application here keeps the slots filled, whether or not it rewrites.
          have here := wilRewriteSystemApplyAt_present ready present tried
          have evolved := wilRewriteSystemApplyAt_rewrites strict_shape
            (soundEquivalence_shape equivalent) ready tried
          cases outcome with
          | some replacement =>
            simp only [tried] at passed
            cases passed
            exact here
          | none =>
            simp only [tried] at passed
            obtain ⟨last, looped, equal⟩ := Option.map_eq_some_iff.mp passed
            cases equal
            exact rewriteInputs_present visits fuel 0 (ready.after evolved.evolves evolved.rules)
              looped here

/-- No slot of the graph is null, or no rule could hand on the null pointer. -/
def Filled (sys : WILRewriteSystem) : Prop := NoNullInput sys.ctx ∨ NoBareVariable sys.rules

/-- A pass keeps the condition on null pointers. -/
theorem Filled.passed (fuel : Nat) {pointer result : Option Nat} (filled : Filled sys)
    (ready : Ready shapeInterp (fun _ => True) sys pointer)
    (passed : wrsApplyRecursive equivalent fuel sys pointer = some (sys', result)) :
    Filled sys' := by
  rcases filled with present | bare
  · exact .inl (wrsApplyRecursive_present fuel ready passed present)
  · refine .inr ?_
    -- Passes keep the rules.
    have rules : sys'.rules = sys.rules := wrsApplyRecursive_rules fuel passed
    rw [rules]
    exact bare

/-! The pass that stops a loop. -/

end NormalForm

end Wirble
