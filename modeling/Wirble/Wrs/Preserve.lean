import Wirble.Wrs.Step

/-! Passes and fixpoint loops of valid rules keep the value of the node they rewrite. -/

namespace Wirble

open WILContext

section Preserve

variable {V : Type} (interp : WILInterp V) (good : V → Prop)

/-- Good values come from good inputs. -/
structure Strict : Prop where
  operator : ∀ kind inputs, kind.arity.isSome → good (interp.operator kind inputs) →
    ∀ input ∈ inputs, good input
  other : ∀ node inputs, good (interp.other node inputs) → ∀ input ∈ inputs, good input
  /-- Patterns read and build integer constants of 32 bits, and no other constant is good. -/
  constant : ∀ type value, good (interp.constInt type value) →
    interp.constInt type value = interp.constInt .i32 value

/-- Constants and parameters have no inputs, unless it makes no difference which values are good. -/
def GoodLeaves (ctx : WILContext) : Prop := ctx.LeafKinds ∨ ∀ value, good value

/-- Both sides of a rule are equal wherever the left one is good. -/
def ValidRule (rule : WILRewriteRule) : Prop :=
  ∀ assign : String → V, (∀ name, good (assign name)) → good (rule.lhs.eval interp assign) →
    rule.rhs.eval interp assign = rule.lhs.eval interp assign

/-- Related nodes have equal values. -/
def SoundEquivalence (equivalent : WILContext → Option Nat → Option Nat → Bool) : Prop :=
  ∀ ctx left right, equivalent ctx left right = true →
    ∀ value, ctx.IsValuation interp value → value left = value right

variable {interp good} {equivalent : WILContext → Option Nat → Option Nat → Bool}

/-- The inputs of a good node are good. -/
theorem Strict.inputs (strict : Strict interp good) {ctx : WILContext} (leaves : GoodLeaves good ctx)
    {value : Option Nat → V} (valuation : ctx.IsValuation interp value) {ref : Nat}
    (isGood : good (value (some ref))) (target : Option Nat) (member : target ∈ ctx.targets ref) :
    good (value target) := by
  rcases leaves with leaves | all
  · have inside := inside_of_target member
    have found := List.getElem?_eq_getElem inside
    rw [valuation.obeys.node ref _ (Nat.zero_le _) found] at isGood
    by_cases leaf : ctx.graph[ref].kind.isLeaf = true
    · -- Leaves have no inputs.
      rw [leaves ref _ found leaf] at member
      simp at member
    · by_cases operator : ctx.graph[ref].kind.arity.isSome = true
      · rw [interp.denote_operator operator] at isGood
        exact strict.operator _ _ operator isGood _ (List.mem_map_of_mem member)
      · -- The value of any other node is that of a foreign one.
        have foreign : interp.denote ctx.graph[ref] ((ctx.targets ref).map value) =
            interp.other ctx.graph[ref].core ((ctx.targets ref).map value) := by
          unfold WILInterp.denote
          cases kind : ctx.graph[ref].kind <;>
            simp_all [WILNodeKind.isLeaf, WILNodeKind.arity]
        rw [foreign] at isGood
        exact strict.other _ _ isGood _ (List.mem_map_of_mem member)
  · exact all _

mutual

/-- A covered pattern has the value of its node, and binds good values. -/
theorem Covers.value {ctx : WILContext} (strict : Strict interp good)
    (sound : SoundEquivalence interp equivalent) (leaves : GoodLeaves good ctx)
    {value : Option Nat → V} (valuation : ctx.IsValuation interp value)
    {subst : WILSubstitution} : ∀ {pattern : WILPattern} {node : Option Nat},
    pattern.simple = true → Covers equivalent ctx subst pattern node → good (value node) →
    pattern.eval interp (fun name => value (wilSubstitutionLookup subst (some name))) =
        value node ∧
      ∀ name ∈ pattern.vars, good (value (wilSubstitutionLookup subst (some name)))
  | .var (some name), node, _, covered, isGood => by
    -- A name has the value of the node that it is bound to, which agrees with the matched one.
    obtain ⟨bound, read, agrees⟩ := covered
    have same : value (wilSubstitutionLookup subst (some name)) = value node := by
      simp only [wilSubstitutionLookup, Option.bind_some, read, Option.join_some]
      rcases agrees with rfl | related
      · rfl
      · exact sound ctx bound node related value valuation
    refine ⟨same, fun other member => ?_⟩
    cases List.mem_singleton.mp member
    rw [same]
    exact isGood
  | .constInt constant, node, _, covered, isGood => by
    -- A constant that is no error has its own value.
    obtain ⟨record, stored, kind, content⟩ := covered
    refine ⟨?_, by simp [WILPattern.vars]⟩
    cases node with
    | none => simp [deref] at stored
    | some ref =>
      have equation := valuation.obeys.node ref record (Nat.zero_le _) stored
      simp only [WILInterp.denote, kind, content] at equation
      rw [equation] at isGood ⊢
      exact (strict.constant record.type constant isGood).symm
  | .constBool constant, node, _, covered, _ => by
    obtain ⟨record, stored, kind, content⟩ := covered
    refine ⟨?_, by simp [WILPattern.vars]⟩
    cases node with
    | none => simp [deref] at stored
    | some ref =>
      rw [valuation.obeys.node ref record (Nat.zero_le _) stored]
      simp [WILPattern.eval, WILInterp.denote, kind, content]
  | .node kind inputs, node, simple, covered, isGood => by
    simp only [WILPattern.simple, Bool.and_eq_true, decide_eq_true_eq] at simple
    obtain ⟨ref, record, rfl, stored, rfl, below⟩ := covered
    have operator : record.kind.arity.isSome := by simp [simple.1]
    obtain ⟨values, binds⟩ := CoversList.value strict sound leaves valuation simple.2 below
      (strict.inputs leaves valuation isGood)
    refine ⟨?_, binds⟩
    -- The operator is applied to the values of the inputs on both sides.
    rw [valuation.obeys.node ref record (Nat.zero_le _) stored, interp.denote_operator operator, WILPattern.eval,
      values]
  | .var none, _, simple, _, _ | .null, _, simple, _, _ | .constFloat _, _, simple, _, _
  | .wildcard, _, simple, _, _ | .predicate _, _, simple, _, _ | .sequence _ _, _, simple, _, _
  | .refinement _, _, simple, _, _ => by simp [WILPattern.simple] at simple

/-- The nodes that patterns cover have the values of the patterns. -/
theorem CoversList.value {ctx : WILContext} (strict : Strict interp good)
    (sound : SoundEquivalence interp equivalent) (leaves : GoodLeaves good ctx)
    {value : Option Nat → V} (valuation : ctx.IsValuation interp value)
    {subst : WILSubstitution} : ∀ {patterns : List WILPattern} {nodes : List (Option Nat)},
    WILPattern.simpleList patterns = true → CoversList equivalent ctx subst patterns nodes →
    (∀ node ∈ nodes, good (value node)) →
    WILPattern.evalList interp (fun name => value (wilSubstitutionLookup subst (some name)))
        patterns = nodes.map value ∧
      ∀ name ∈ WILPattern.varsList patterns,
        good (value (wilSubstitutionLookup subst (some name)))
  | [], [], _, _, _ => ⟨rfl, by simp [WILPattern.varsList]⟩
  | pattern :: patterns, node :: nodes, simple, covered, isGood => by
    simp only [WILPattern.simpleList, Bool.and_eq_true] at simple
    -- The first pattern covers the first node, and the others the rest.
    obtain ⟨head, headBinds⟩ := Covers.value strict sound leaves valuation simple.1 covered.1
      (isGood node (.head _))
    obtain ⟨tail, tailBinds⟩ := CoversList.value strict sound leaves valuation simple.2 covered.2
      fun target member => isGood target (.tail _ member)
    refine ⟨by rw [WILPattern.evalList, head, tail, List.map_cons], fun name member => ?_⟩
    rcases List.mem_append.mp member with early | late
    · exact headBinds name early
    · exact tailBinds name late
  | [], _ :: _, _, covered, _ | _ :: _, [], _, covered, _ => covered.elim

end

mutual

/-- Only the variables of a pattern matter for its value. -/
theorem WILPattern.eval_congr {left right : String → V} : ∀ {pattern : WILPattern},
    (∀ name ∈ pattern.vars, left name = right name) →
    pattern.eval interp left = pattern.eval interp right
  | .var (some name), agree | .sequence (some name) _, agree =>
    -- A name has its value from the assignment.
    agree name (by simp [WILPattern.vars])
  | .node _ inputs, agree => by
    -- An operator has its value from its inputs.
    rw [WILPattern.eval, WILPattern.eval, WILPattern.evalList_congr agree]
  | .refinement base, agree => by
    rw [WILPattern.eval, WILPattern.eval]
    exact WILPattern.eval_congr agree
  | .var none, _ | .sequence none _, _ | .null, _ | .constInt _, _ | .constFloat _, _
  | .constBool _, _ | .wildcard, _ | .predicate _, _ => rfl

/-- The values of patterns depend on their names only. -/
theorem WILPattern.evalList_congr {left right : String → V} : ∀ {patterns : List WILPattern},
    (∀ name ∈ WILPattern.varsList patterns, left name = right name) →
    WILPattern.evalList interp left patterns = WILPattern.evalList interp right patterns
  | [], _ => rfl
  | _ :: _, agree => by
    -- The first pattern and the others each have their own names among those of the list.
    rw [WILPattern.evalList, WILPattern.evalList,
      WILPattern.eval_congr fun name member => agree name (List.mem_append_left _ member),
      WILPattern.evalList_congr fun name member => agree name (List.mem_append_right _ member)]

end

/-- A step of a valid rule at a good node keeps every old value, and returns the node's own. -/
theorem RuleStep.evolves {before middle after : WILContext} {rule : WILRewriteRule}
    {node replacement : Nat} {subst : WILSubstitution}
    (step : RuleStep equivalent before rule node replacement subst middle after)
    (simple : SimpleRule rule) (valid : ValidRule interp good rule)
    (strict : Strict interp good) (sound : SoundEquivalence interp equivalent)
    (consistent : DefUse before) (grounded : Dag.Grounded before.succ)
    (leaves : GoodLeaves good before)
    (isGood : ∀ value, before.IsValuation interp value → good (value (some node))) :
    Evolves interp before after ∧ replacement < after.graph.length ∧
      (∀ sink < before.graph.length, Dag.Reach after.succ (some replacement) (some sink) →
        Dag.Reach before.succ (some node) (some sink)) ∧
      ∀ value value', before.IsValuation interp value → after.IsValuation interp value' →
        value' (some replacement) = value (some node) := by
  obtain ⟨value, (valuation : before.IsValuation interp value)⟩ :=
    grounded.exists_valuation (before.label interp)
  have nodeGood := isGood value valuation
  have old : ∀ ref, Relation.TransGen (Dag.Edge before.succ) (some node) (some ref) →
      ref < before.graph.length := fun _ path => consistent.closed.inside_of_below path
  obtain ⟨covered, binds⟩ :=
    step.covers.value strict sound leaves valuation simple.lhs nodeGood
  -- Unbound names get the node's own good value, which changes neither side.
  let assign : String → V := fun name =>
    if name ∈ rule.lhs.vars then value (wilSubstitutionLookup subst (some name))
    else value (some node)
  have assignGood : ∀ name, good (assign name) := by
    intro name
    by_cases named : name ∈ rule.lhs.vars
    · simpa [assign, named] using binds name named
    · simpa [assign, named] using nodeGood
  -- The left side has the value of the matched node.
  have left : rule.lhs.eval interp assign = value (some node) := by
    rw [← covered]
    refine WILPattern.eval_congr fun name member => ?_
    simp [assign, member]
  have right : rule.rhs.eval interp assign = value (some node) := by
    rw [valid assign assignGood (left ▸ nodeGood), left]
  -- Any assignment that obeys the middle graph agrees with the valuation on old nodes.
  have equal : ∀ grown, middle.Obeys interp grown →
      grown (some replacement) = grown (some node) := by
    intro grown obeys
    have agreement := Obeys.eq_valuation consistent.closed grounded valuation
      (step.built.obeys obeys)
    rw [step.value V interp grown (obeys.from _),
      agreement (some node) fun ref equal => by cases equal; exact step.inside, ← right]
    refine WILPattern.eval_congr fun name member => ?_
    have named := simple.vars name member
    obtain ⟨binding, read, path⟩ := step.bound name named
    simp only [assign, named, if_true, wilSubstitutionLookup, Option.bind_some, read,
      Option.join_some]
    refine agreement binding fun ref equal => old ref ?_
    rw [← equal]
    exact path
  -- Equal values make the redirection keep all old ones.
  obtain ⟨evolves, valuations, below⟩ := step.built.replaceAllUses consistent grounded
    (fun _ path => path) old step.inside step.placed.1 (step.placed.2 _ rfl) equal
  rw [← step.after] at evolves valuations below
  refine ⟨evolves, ?_, below, fun first last valuationFirst valuationLast => ?_⟩
  · rw [step.after, (sameNodes_replaceAllUses _ _ _).length]
    exact step.placed.2 _ rfl
  · rw [equal last (valuations last valuationLast).obeys]
    exact (evolves.agree first last valuationFirst valuationLast node step.inside).1

/-! Passes. -/

variable (interp good) in
/-- A system of valid rules about to rewrite below a good node of a well-formed graph. -/
structure Ready (sys : WILRewriteSystem) (pointer : Option Nat) : Prop where
  consistent : DefUse sys.ctx
  grounded : Dag.Grounded sys.ctx.succ
  leaves : GoodLeaves good sys.ctx
  rules : ∀ rule ∈ sys.rules, SimpleRule rule ∧ ValidRule interp good rule
  inside : ∀ ref, pointer = some ref → ref < sys.ctx.graph.length
  good : ∀ ref, pointer = some ref → ∀ value, sys.ctx.IsValuation interp value →
    good (value (some ref))

variable (interp) in
/-- What rewriting below a pointer leaves behind, with the replacement it returns if any. -/
structure Rewrites (before : WILRewriteSystem) (pointer : Option Nat) (after : WILRewriteSystem)
    (result : Option Nat) : Prop where
  evolves : Evolves interp before.ctx after.ctx
  rules : after.rules = before.rules
  inside : ∀ ref, result = some ref → ref < after.ctx.graph.length
  below : ∀ ref, result = some ref → ∀ sink < before.ctx.graph.length,
    Dag.Reach after.ctx.succ (some ref) (some sink) →
    Dag.Reach before.ctx.succ pointer (some sink)
  value : ∀ ref, result = some ref → ∀ value value',
    before.ctx.IsValuation interp value → after.ctx.IsValuation interp value' →
    value' (some ref) = value pointer

/-- A system that is left as it was has been rewritten by no rule. -/
theorem Ready.unchanged {sys : WILRewriteSystem} {pointer : Option Nat}
    (ready : Ready interp good sys pointer) (other : Option Nat) :
    Rewrites interp sys other sys none where
  evolves := .refl ready.consistent ready.grounded
  rules := rfl
  -- There is no replacement to say anything about.
  inside _ impossible := by simp at impossible
  below _ impossible := by simp at impossible
  value _ impossible := by simp at impossible

/-- A node stays ready when the graph evolves around it. -/
theorem Ready.after {before after : WILRewriteSystem} {node : Nat}
    (ready : Ready interp good before (some node))
    (evolves : Evolves interp before.ctx after.ctx) (rules : after.rules = before.rules) :
    Ready interp good after (some node) where
  consistent := evolves.consistent
  grounded := evolves.grounded
  leaves := ready.leaves.imp_left evolves.leaves
  rules := rules ▸ ready.rules
  inside ref equal := by
    cases equal
    exact Nat.lt_of_lt_of_le (ready.inside node rfl) evolves.longer
  good ref equal value valuation := by
    cases equal
    -- The node has the value it had before.
    obtain ⟨earlier, (valuationEarlier : before.ctx.IsValuation interp earlier)⟩ :=
      ready.grounded.exists_valuation (before.ctx.label interp)
    have kept := evolves.agree earlier value valuationEarlier valuation node (ready.inside node rfl)
    rw [kept.1]
    exact ready.good node rfl earlier valuationEarlier

/-- An input of a ready node is ready. -/
theorem Ready.input {sys : WILRewriteSystem} {node : Nat}
    (ready : Ready interp good sys (some node)) (strict : Strict interp good) {index : Nat}
    (valid : index < sys.ctx.inputCount node) :
    Ready interp good sys (sys.ctx.inputAt node index) := by
  rw [inputCount_eq] at valid
  -- An input is a target of the node.
  have member : sys.ctx.inputAt node index ∈ sys.ctx.targets node := by
    rw [inputAt_of_valid valid]
    exact List.getElem_mem valid
  refine ⟨ready.consistent, ready.grounded, ready.leaves, ready.rules, ?_, ?_⟩
  · intro ref equal
    exact ready.consistent.closed node ref (equal ▸ member)
  -- A node with a value has inputs with values.
  · intro ref equal value valuation
    exact strict.inputs ready.leaves valuation (ready.good node rfl value valuation) _
      (equal ▸ member)

/-- Rewriting around a node first and at the node afterwards. -/
theorem Rewrites.trans {before middle after : WILRewriteSystem} {node : Nat} {result : Option Nat}
    (inside : node < before.ctx.graph.length)
    (left : Evolves interp before.ctx middle.ctx) (rules : middle.rules = before.rules)
    (right : Rewrites interp middle (some node) after result) :
    Rewrites interp before (some node) after result where
  evolves := left.trans right.evolves
  rules := right.rules.trans rules
  inside := right.inside
  -- What the second graph reaches from old nodes, the first one reached.
  below ref equal sink sinkOld path :=
    left.reach node sink inside sinkOld
      (right.below ref equal sink (Nat.lt_of_lt_of_le sinkOld left.longer) path)
  value ref equal value value' valuation valuation' := by
    -- The values are compared by way of the graph in the middle.
    obtain ⟨between, (valuationBetween : middle.ctx.IsValuation interp between)⟩ :=
      left.grounded.exists_valuation (middle.ctx.label interp)
    rw [right.value ref equal between value' valuationBetween valuation']
    exact (left.agree value between valuation valuationBetween node inside).1

variable {sys sys' : WILRewriteSystem}

/-- One application at a ready node keeps its value. -/
theorem wilRewriteSystemApplyAt_rewrites (strict : Strict interp good)
    (sound : SoundEquivalence interp equivalent) {node : Nat} {result : Option Nat}
    (ready : Ready interp good sys (some node))
    (applied : wilRewriteSystemApplyAt equivalent sys (some node) = (sys', result)) :
    Rewrites interp sys (some node) sys' result := by
  -- Either no rule applies, or one rule makes one step.
  have simple : ∀ rule ∈ sys.rules, SimpleRule rule := fun rule member =>
    (ready.rules rule member).1
  cases result with
  -- Without a rule nothing has changed.
  | none =>
    rw [wilRewriteSystemApplyAt_none simple applied]
    exact ready.unchanged (some node)
  | some replacement =>
    obtain ⟨rules, -, rule, member, -, subst, middle, step⟩ :=
      wilRewriteSystemApplyAt_some simple ready.consistent applied
    -- A rule that applied is valid, so its step keeps the values.
    obtain ⟨simpleRule, valid⟩ := ready.rules rule member
    obtain ⟨evolves, inside, below, value⟩ := step.evolves simpleRule valid strict sound
      ready.consistent ready.grounded ready.leaves (ready.good node rfl)
    refine ⟨evolves, rules, ?_, ?_, ?_⟩
    · rintro ref ⟨⟩
      exact inside
    · rintro ref ⟨⟩
      exact below
    · rintro ref ⟨⟩
      exact value

/-- The loop over the inputs of a ready node keeps every old value. -/
theorem rewriteInputs_evolves (strict : Strict interp good)
    {recurse : WILRewriteSystem → Option Nat → Option (WILRewriteSystem × Option Nat)}
    (recursed : ∀ {sys pointer sys' result}, Ready interp good sys pointer →
      recurse sys pointer = some (sys', result) → Rewrites interp sys pointer sys' result)
    {node : Nat} (fuel index : Nat) (ready : Ready interp good sys (some node))
    (looped : rewriteInputs recurse node fuel index sys = some sys') :
    Evolves interp sys.ctx sys'.ctx ∧ sys'.rules = sys.rules := by
  -- Induction on the rounds: each one rewrites below a slot and stores what that returned.
  induction fuel generalizing index sys with
  | zero => simp [rewriteInputs] at looped
  | succ fuel next =>
    rw [rewriteInputs] at looped
    split at looped
    · rename_i valid
      have child := ready.input strict valid
      cases round : recurse sys (sys.ctx.inputAt node index) with
      | none => simp [round] at looped
      | some outcome =>
        obtain ⟨middle, result⟩ := outcome
        have rewritten := recursed child round
        cases result with
        | none =>
          -- The slot stays as it was, and the loop goes on over what the rewriting left.
          simp only [round] at looped
          have later := ready.after rewritten.evolves rewritten.rules
          obtain ⟨evolves, rules⟩ := next (index + 1) later looped
          exact ⟨rewritten.evolves.trans evolves, rules.trans rewritten.rules⟩
        | some replacement =>
          simp only [round] at looped
          -- Storing the replacement in the slot is one more edit of an old value.
          have stored := rewritten.evolves.replaceInput ready.grounded (ready.inside node rfl)
            (rewritten.inside replacement rfl) (rewritten.below replacement rfl)
            (rewritten.value replacement rfl)
          let updated : WILRewriteSystem := { middle with
            ctx := wilNodeReplaceInput middle.ctx node index (some replacement) }
          have later : Ready interp good updated (some node) :=
            ready.after stored rewritten.rules
          obtain ⟨evolves, rules⟩ := next (index + 1) later looped
          exact ⟨stored.trans evolves, rules.trans rewritten.rules⟩
    · cases looped
      exact ⟨.refl ready.consistent ready.grounded, rfl⟩

/-- One pass keeps the value of the node it starts from, in either visiting order. -/
theorem wrsApplyRecursive_rewrites (strict : Strict interp good)
    (sound : SoundEquivalence interp equivalent) (fuel : Nat) {pointer result : Option Nat}
    (ready : Ready interp good sys pointer)
    (passed : wrsApplyRecursive equivalent fuel sys pointer = some (sys', result)) :
    Rewrites interp sys pointer sys' result := by
  induction fuel generalizing sys sys' pointer result with
  | zero => simp [wrsApplyRecursive] at passed
  | succ fuel next =>
    cases pointer with
    | none =>
      simp only [wrsApplyRecursive, Option.some.injEq, Prod.mk.injEq] at passed
      obtain ⟨rfl, rfl⟩ := passed
      exact ready.unchanged none
    | some node =>
      rw [wrsApplyRecursive] at passed
      split at passed
      · -- Innermost: the inputs first, and then the node itself.
        rw [Option.map_eq_some_iff] at passed
        obtain ⟨middle, looped, applied⟩ := passed
        obtain ⟨evolves, rules⟩ := rewriteInputs_evolves strict next fuel 0 ready looped
        have here := wilRewriteSystemApplyAt_rewrites strict sound
          (ready.after evolves rules) applied
        exact here.trans (ready.inside node rfl) evolves rules
      · -- Otherwise the node itself, and the inputs only when nothing applied.
        cases tried : wilRewriteSystemApplyAt equivalent sys (some node) with
        | mk middle outcome =>
          have here := wilRewriteSystemApplyAt_rewrites strict sound ready tried
          -- A rule that applied here ends the pass at this node.
          cases outcome with
          | some replacement =>
            simp only [tried, Option.some.injEq, Prod.mk.injEq] at passed
            obtain ⟨rfl, rfl⟩ := passed
            exact here
          | none =>
            simp only [tried, Option.map_eq_some_iff, Prod.mk.injEq] at passed
            obtain ⟨last, looped, rfl, rfl⟩ := passed
            -- Otherwise the inputs are rewritten in turn.
            have later := ready.after here.evolves here.rules
            obtain ⟨evolves, rules⟩ := rewriteInputs_evolves strict next fuel 0 later looped
            exact ⟨here.evolves.trans evolves, rules.trans here.rules, by simp, by simp, by simp⟩

/-- The replacement that a pass returns is ready for the next one. -/
theorem Ready.passed (strict : Strict interp good) (sound : SoundEquivalence interp equivalent)
    (fuel : Nat) {pointer : Option Nat} {replacement : Nat} (ready : Ready interp good sys pointer)
    (passed : wrsApplyRecursive equivalent fuel sys pointer = some (sys', some replacement)) :
    Ready interp good sys' (some replacement) := by
  have rewritten := wrsApplyRecursive_rewrites strict sound fuel ready passed
  refine ⟨rewritten.evolves.consistent, rewritten.evolves.grounded,
    ready.leaves.imp_left rewritten.evolves.leaves, rewritten.rules ▸ ready.rules, ?_, ?_⟩
  · rintro ref ⟨⟩
    exact rewritten.inside replacement rfl
  · rintro ref ⟨⟩ value valuation
    -- The replacement has the value of the node, which was good.
    obtain ⟨earlier, (valuationEarlier : sys.ctx.IsValuation interp earlier)⟩ :=
      ready.grounded.exists_valuation (sys.ctx.label interp)
    rw [rewritten.value replacement rfl earlier value valuationEarlier valuation]
    cases pointer with
    | none =>
      -- The null pointer is never replaced.
      cases fuel <;> simp [wrsApplyRecursive] at passed
    | some node => exact ready.good node rfl earlier valuationEarlier

/-- The loop of passes keeps the value of the node it starts from. -/
theorem normalizeLoop_value (strict : Strict interp good)
    (sound : SoundEquivalence interp equivalent) (fuel iterations : Nat)
    {current result : Option Nat} {exit : LoopExit} (ready : Ready interp good sys current)
    (looped : normalizeLoop equivalent fuel iterations sys current = some (sys', result, exit)) :
    Dag.Grounded sys'.ctx.succ ∧ ∀ value value', sys.ctx.IsValuation interp value →
      sys'.ctx.IsValuation interp value' → value' result = value current := by
  induction iterations generalizing sys current with
  | zero =>
    -- Without passes left the node is returned as it is.
    simp only [normalizeLoop, Option.some.injEq, Prod.mk.injEq] at looped
    obtain ⟨rfl, rfl, rfl⟩ := looped
    refine ⟨ready.grounded, fun value value' valuation valuation' => ?_⟩
    rw [ready.grounded.valuation_unique valuation valuation']
  | succ iterations next =>
    rw [normalizeLoop] at looped
    cases pass : wrsApplyRecursive equivalent fuel sys current with
    | none => simp [pass] at looped
    | some outcome =>
      obtain ⟨middle, replacement⟩ := outcome
      have rewritten := wrsApplyRecursive_rewrites strict sound fuel ready pass
      cases replacement with
      | none =>
        -- The last pass may have rewritten below the node, which keeps its value.
        simp only [pass, Option.some.injEq, Prod.mk.injEq] at looped
        obtain ⟨rfl, rfl, rfl⟩ := looped
        refine ⟨rewritten.evolves.grounded, fun value value' valuation valuation' => ?_⟩
        cases current with
        | none => exact valuation'.obeys.null.trans valuation.obeys.null.symm
        | some node =>
          exact (rewritten.evolves.agree value value' valuation valuation' node
            (ready.inside node rfl)).1
      | some replacement =>
        simp only [pass] at looped
        -- The graph between the passes has a valuation, by which the rest agrees.
        obtain ⟨between, (valuationBetween : middle.ctx.IsValuation interp between)⟩ :=
          rewritten.evolves.grounded.exists_valuation (middle.ctx.label interp)
        have nextReady := ready.passed strict sound fuel pass
        obtain ⟨grounded, rest⟩ := next nextReady looped
        refine ⟨grounded, fun value value' valuation valuation' => ?_⟩
        rw [rest between value' valuationBetween valuation']
        exact rewritten.value replacement rfl value between valuation valuationBetween

end Preserve

end Wirble
