import Wirble.Wrs.Calls
import Wirble.Wrs.Guards
import Wirble.Wrs.Instantiate

/-! What calls of the engine and edits of the graph leave of the graph and of the counters. -/

namespace Wirble

open WILContext

/-! The counters. -/

/-- A system starts with a counter for each of 256 rules. -/
theorem WILRewriteStats.zero_entries : WILRewriteStats.zero.rulesApplied.length = 256 :=
  List.length_replicate

/-- The counters of a system that was reset are balanced. -/
theorem WILRewriteStats.zero_total :
    WILRewriteStats.zero.rulesApplied.sum = WILRewriteStats.zero.totalRewrites := by
  have zeros : ∀ count : Nat, (List.replicate count (0 : BitVec 32)).sum = 0 := by
    intro count
    induction count with
    | zero => rfl
    | succ count next =>
      rw [List.replicate_succ, List.sum_cons, next]
      rfl
  -- Reset sets all entries to zero.
  exact zeros 256

/-- Counting in one entry of an array of counters adds one to their sum, modulo 2 ^ 32 like the
counter itself. -/
theorem sum_modify_succ (counters : List (BitVec 32)) {index : Nat}
    (inside : index < counters.length) :
    (counters.modify index (· + 1)).sum = counters.sum + 1 := by
  -- The entry is the first one, or lies in the rest.
  induction counters generalizing index with
  | nil => cases inside
  | cons counter rest next =>
    cases index with
    | zero =>
      rw [List.modify_zero_cons, List.sum_cons, List.sum_cons]
      rw [BitVec.add_assoc, BitVec.add_comm 1, ← BitVec.add_assoc]
    | succ index =>
      rw [List.modify_succ_cons, List.sum_cons, List.sum_cons, next (Nat.lt_of_succ_lt_succ inside)]
      exact (BitVec.add_assoc counter rest.sum 1).symm

/-! What the engine keeps. -/

/-- A rule that builds no operator over null from inputs that are present. -/
structure WILRewriteRule.Complete (rule : WILRewriteRule) : Prop where
  accepted : wilRuleValidate rule = true
  respects : rule.rhs.respectsArity = true

instance (rule : WILRewriteRule) : Decidable rule.Complete :=
  decidable_of_iff (wilRuleValidate rule = true ∧ rule.rhs.respectsArity = true)
    ⟨fun checks => ⟨checks.1, checks.2⟩, fun complete => ⟨complete.accepted, complete.respects⟩⟩

/-- The counters of the rules sum up to the counter of all rewrites, both modulo 2 ^ 32, and the graph
is consistent. -/
structure Accounted (sys : WILRewriteSystem) : Prop where
  consistent : DefUse sys.ctx
  rules : ∀ rule ∈ sys.rules, rule.action = none ∧ rule.statsIndex < 256
  entries : sys.stats.rulesApplied.length = 256
  total : sys.stats.rulesApplied.sum = sys.stats.totalRewrites

/-- What the engine leaves behind, with the replacement that it returns if any. -/
structure Engaged (before after : WILRewriteSystem) (result : Option Nat) : Prop where
  consistent : DefUse after.ctx
  longer : before.ctx.graph.length ≤ after.ctx.graph.length
  rules : after.rules = before.rules
  inside : Inside after.ctx result
  entries : after.stats.rulesApplied.length = before.stats.rulesApplied.length
  total : before.stats.rulesApplied.sum = before.stats.totalRewrites →
    after.stats.rulesApplied.sum = after.stats.totalRewrites
  present : (∀ rule ∈ before.rules, rule.Complete) → NoNullInput before.ctx →
    NoNullInput after.ctx

section Engine

variable {equivalent : WILContext → Option Nat → Option Nat → Bool}
  {sys sys' middle : WILRewriteSystem} {rule : WILRewriteRule} {result : Option Nat}

/-- A system that is left alone is engaged in nothing. -/
theorem Accounted.unchanged (accounted : Accounted sys) : Engaged sys sys none where
  consistent := accounted.consistent
  longer := Nat.le_refl _
  rules := rfl
  inside := by rintro ref ⟨⟩
  entries := rfl
  total := id
  present _ := id

/-- What is engaged twice is engaged. -/
theorem Engaged.trans {last : WILRewriteSystem} {result' : Option Nat}
    (left : Engaged sys middle result') (right : Engaged middle last result) :
    Engaged sys last result where
  consistent := right.consistent
  longer := Nat.le_trans left.longer right.longer
  rules := right.rules.trans left.rules
  inside := right.inside
  -- Both runs keep the number of entries, and each of them keeps the sums in step.
  entries := right.entries.trans left.entries
  total balanced := right.total (left.total balanced)
  present complete before :=
    right.present (left.rules.symm ▸ complete) (left.present complete before)

/-- Engaged rules keep the accounts. -/
theorem Engaged.accounted (engaged : Engaged sys sys' result) (accounted : Accounted sys) :
    Accounted sys' where
  consistent := engaged.consistent
  rules := engaged.rules.symm ▸ accounted.rules
  entries := engaged.entries.trans accounted.entries
  total := engaged.total accounted.total

/-- A pointer into the graph stays one while the graph grows. -/
theorem Inside.grown {before after : WILContext} {pointer : Option Nat}
    (inside : Inside before pointer) (longer : before.graph.length ≤ after.graph.length) :
    Inside after pointer :=
  fun ref equal => Nat.lt_of_lt_of_le (inside ref equal) longer

/-- Building the right-hand side of a complete rule adds no null inputs. -/
theorem WILRewriteRule.Complete.builds (complete : rule.Complete) {ctx : WILContext} {node : Nat}
    {found : WILMatch} (present : NoNullInput ctx)
    (matched : wilPatternMatch equivalent ctx rule.lhs (some node) = some found) :
    NoNullInput (wilSubstitutionApply ctx found.substitution rule.rhs).1 := by
  -- The new nodes have their inputs, and the old nodes keep theirs.
  have instantiates := ((wrsApplyPattern_instantiates_iff equivalent ctx complete.accepted
    matched).2 (present.inputsPresent node)).mpr complete.respects
  intro user
  rcases Nat.lt_or_ge user ctx.graph.length with old | new
  · rw [wilSubstitutionApply, (wrsApplyPattern_addsNodes _ _ ctx).kept user old]
    exact present user
  · exact instantiates.present user new

/-- One rule is tried at a node. -/
theorem wrsApplyRule_engaged (accounted : Accounted sys) (member : rule ∈ sys.rules)
    {node : Option Nat} (inside : Inside sys.ctx node)
    (applied : wrsApplyRule equivalent sys rule node = (sys', result)) :
    Engaged sys sys' result := by
  obtain ⟨plain, counter⟩ := accounted.rules rule member
  have same := accounted.unchanged
  -- Nothing is tried at the null pointer, and a disabled rule or one without a match does nothing.
  cases node with
  | none =>
    cases applied
    exact same
  | some node =>
    -- The rule matches at a node of the graph.
    have nodeInside := inside node rfl
    simp only [wrsApplyRule, plain] at applied
    split at applied
    · cases applied
      exact same
    split at applied
    · cases applied
      exact same
    next found matched =>
    have filled : rule.Complete → NoNullInput sys.ctx → NoNullInput _ :=
      fun complete present => complete.builds present matched
    obtain ⟨subst, run, rfl⟩ := Option.map_eq_some_iff.mp matched
    -- The right-hand side is built over what the match has bound.
    obtain ⟨built, placed⟩ := wrsApplyPattern_grows (.inl rfl : Bindable sys.ctx node none)
      accounted.consistent (Nat.le_refl _)
      (fun name (_ : name ∈ rule.rhs.vars) => Bindable.lookup run name)
      fun _ => Bindable.inside accounted.consistent.closed nodeInside
    simp only [wilSubstitutionApply] at applied filled
    cases build : wrsApplyPattern subst rule.rhs sys.ctx with
    | mk grown replacement =>
      rw [build] at built placed filled
      cases replacement with
      -- Without a replacement no use is redirected and nothing is counted.
      | none =>
        simp only [build] at applied
        cases applied
        exact ⟨built.consistent, built.longer, rfl, by rintro ref ⟨⟩, rfl, id,
          fun complete => filled (complete rule member)⟩
      | some replacement =>
        simp only [build] at applied
        cases applied
        -- The uses are redirected to a node of the graph.
        have edits := sameNodes_replaceAllUses grown (some node) (some replacement)
        have target : replacement < grown.graph.length := placed.2 _ rfl
        refine ⟨built.consistent.replaceAllUses (some node) (some replacement) ?_, ?_, rfl, ?_, ?_,
          ?_, ?_⟩
        · rintro ref ⟨⟩
          exact target
        · exact Nat.le_trans built.longer (Nat.le_of_eq edits.length.symm)
        · rintro ref ⟨⟩
          exact Nat.lt_of_lt_of_le target (Nat.le_of_eq edits.length.symm)
        · simp only [WILRewriteStats.count, if_pos counter, List.length_modify]
        -- The entry of the rule and the total both go up by one.
        · intro balanced
          simp only [WILRewriteStats.count, if_pos counter]
          rw [sum_modify_succ _ (by rw [accounted.entries]; exact counter), balanced]
        · intro complete present
          exact (filled (complete rule member) present).replaceAllUses built.consistent _ _

/-- Rules of the system are tried in order. -/
theorem applyFirst_engaged {rules : List WILRewriteRule} (accounted : Accounted sys)
    (some : ∀ rule ∈ rules, rule ∈ sys.rules) {node : Option Nat} (inside : Inside sys.ctx node)
    (applied : applyFirst equivalent rules sys node = (sys', result)) :
    Engaged sys sys' result := by
  -- Induction on the rules still to be tried, each on the graph that the ones before it left.
  induction rules generalizing sys with
  | nil =>
    cases applied
    exact accounted.unchanged
  | cons rule rest next =>
    cases first : wrsApplyRule equivalent sys rule node with
    | mk middle outcome =>
      have tried := wrsApplyRule_engaged accounted (some rule (.head _)) inside first
      -- The rule replaced the node, or the next one is tried on what it left.
      cases outcome with
      | some replacement =>
        simp only [applyFirst, first] at applied
        cases applied
        exact tried
      | none =>
        simp only [applyFirst, first] at applied
        have still : ∀ other ∈ rest, other ∈ middle.rules := by
          intro other later
          rw [tried.rules]
          exact some other (.tail _ later)
        exact tried.trans (next (tried.accounted accounted) still (inside.grown tried.longer)
          applied)

/-- Applying at a node keeps the accounts, and says whether a rule was applied. -/
theorem wilRewriteSystemApplyAt_engaged (accounted : Accounted sys) {node : Option Nat}
    (inside : Inside sys.ctx node)
    (applied : wilRewriteSystemApplyAt equivalent sys node = (sys', result)) :
    Engaged sys sys' result :=
  applyFirst_engaged accounted (fun _ => id) inside applied

/-- The replacement of an input is stored in its slot. -/
theorem Engaged.stored (engaged : Engaged sys sys' result) (node index : Nat) :
    Engaged sys (storeResult node index sys' result) none := by
  cases result with
  | none => exact engaged
  | some replacement =>
    -- The replacement is a node, and storing it creates none.
    have edits := sameNodes_replaceInput sys'.ctx node index (some replacement)
    exact ⟨engaged.consistent.replaceInput engaged.inside index,
      Nat.le_trans engaged.longer (Nat.le_of_eq edits.length.symm), engaged.rules, by rintro ref ⟨⟩,
      engaged.entries, engaged.total,
      fun complete present => (engaged.present complete present).replaceInput node index _⟩

/-- Rewriting the inputs keeps the accounts if every call for an input does. -/
theorem rewriteInputs_engaged
    {recurse : WILRewriteSystem → Option Nat → Option (WILRewriteSystem × Option Nat)}
    (recursed : ∀ {sys pointer sys' result}, Accounted sys → Inside sys.ctx pointer →
      recurse sys pointer = some (sys', result) → Engaged sys sys' result)
    {node : Nat} (fuel index : Nat) (accounted : Accounted sys)
    (looped : rewriteInputs recurse node fuel index sys = some sys') :
    Engaged sys sys' none := by
  -- Induction on the rounds.
  induction fuel generalizing index sys with
  | zero => cases looped
  | succ fuel next =>
    rw [rewriteInputs_succ] at looped
    split at looped
    · next valid =>
      obtain ⟨⟨middle, outcome⟩, round, rest⟩ := Option.bind_eq_some_iff.mp looped
      -- The input lies in the graph.
      have target : Inside sys.ctx (sys.ctx.inputAt node index) := by
        intro ref equal
        have edge := edge_inputAt valid
        rw [equal] at edge
        exact accounted.consistent.closed node ref edge
      have stored := (recursed accounted target round).stored node index
      exact stored.trans (next (index + 1) (stored.accounted accounted) rest)
    · cases looped
      exact accounted.unchanged

/-- One pass below a pointer. -/
theorem wrsApplyRecursive_engaged (fuel : Nat) {pointer : Option Nat} (accounted : Accounted sys)
    (inside : Inside sys.ctx pointer)
    (passed : wrsApplyRecursive equivalent fuel sys pointer = some (sys', result)) :
    Engaged sys sys' result := by
  -- Induction on the depth of the recursion.
  induction fuel generalizing sys sys' pointer result with
  | zero => cases passed
  | succ fuel next =>
    cases pointer with
    | none =>
      cases passed
      exact accounted.unchanged
    | some node =>
      rw [wrsApplyRecursive] at passed
      split at passed
      -- Innermost: first the inputs, then the node.
      · obtain ⟨middle, looped, applied⟩ := Option.map_eq_some_iff.mp passed
        have below := rewriteInputs_engaged next fuel 0 accounted looped
        exact below.trans (wilRewriteSystemApplyAt_engaged (below.accounted accounted)
          (inside.grown below.longer) applied)
      · cases tried : wilRewriteSystemApplyAt equivalent sys (some node) with
        | mk middle outcome =>
          have here := wilRewriteSystemApplyAt_engaged accounted inside tried
          cases outcome with
          | some replacement =>
            simp only [tried] at passed
            cases passed
            exact here
          | none =>
            simp only [tried] at passed
            obtain ⟨last, looped, equal⟩ := Option.map_eq_some_iff.mp passed
            cases equal
            exact here.trans (rewriteInputs_engaged next fuel 0 (here.accounted accounted) looped)

/-- The two counters that loops write are not the ones that are balanced. -/
theorem Engaged.counted {stats : WILRewriteStats} (engaged : Engaged sys sys' result)
    (applied : stats.rulesApplied = sys'.stats.rulesApplied)
    (total : stats.totalRewrites = sys'.stats.totalRewrites) :
    Engaged sys { sys' with stats } result :=
  -- The graph is the same, and so are the entries and the total.
  ⟨engaged.consistent, engaged.longer, engaged.rules, engaged.inside,
    (congrArg List.length applied).trans engaged.entries,
    fun balanced => by
      show stats.rulesApplied.sum = stats.totalRewrites
      rw [applied, total]
      exact engaged.total balanced,
    engaged.present⟩

/-- The loop of one call keeps the accounts. -/
theorem wilRewriteSystemApplyToFixpoint_engaged (fuel iterations : Nat) {root : Option Nat}
    (accounted : Accounted sys) (inside : Inside sys.ctx root)
    (looped : wilRewriteSystemApplyToFixpoint equivalent fuel iterations sys root =
      some (sys', result)) :
    Engaged sys sys' none := by
  -- By induction on the rounds, each of which counts itself and makes one pass.
  induction iterations generalizing sys root with
  | zero =>
    cases looped
    exact accounted.unchanged
  | succ iterations next =>
    have begun : Engaged sys
        { sys with stats := { sys.stats with iterations := sys.stats.iterations + 1 } } none :=
      accounted.unchanged.counted rfl rfl
    rw [wilRewriteSystemApplyToFixpoint] at looped
    simp only at looped
    split at looped
    · cases looped
    -- A pass without a replacement is the last one.
    · next last passed =>
      cases looped
      have pass := wrsApplyRecursive_engaged fuel (begun.accounted accounted) inside passed
      exact (begun.trans pass).counted rfl rfl
    -- Otherwise the loop goes on at the replacement.
    · next last replacement passed =>
      have pass := begun.trans
        (wrsApplyRecursive_engaged fuel (begun.accounted accounted) inside passed)
      exact pass.trans (next (pass.accounted accounted) pass.inside looped)

/-- The loop of normalising keeps the accounts, however it is left. -/
theorem normalizeLoop_engaged (fuel iterations : Nat) {current : Option Nat} {exit : LoopExit}
    (accounted : Accounted sys) (inside : Inside sys.ctx current)
    (looped : normalizeLoop equivalent fuel iterations sys current = some (sys', result, exit)) :
    Engaged sys sys' none := by
  -- By induction on the rounds, each of which makes one pass.
  induction iterations generalizing sys current with
  | zero =>
    cases looped
    exact accounted.unchanged
  | succ iterations next =>
    rw [normalizeLoop] at looped
    split at looped
    · cases looped
    · next last passed =>
      cases looped
      exact wrsApplyRecursive_engaged fuel accounted inside passed
    -- A pass that replaced the node hands its accounts to the next round.
    · next last replacement passed =>
      have pass := wrsApplyRecursive_engaged fuel accounted inside passed
      exact pass.trans (next (pass.accounted accounted) pass.inside looped)

end Engine

/-! Edits of the graph between the calls of the engine. -/

section Edits

variable {ctx : WILContext}

/-- A node built on nodes has no null input. -/
theorem NoNullInput.build (present : NoNullInput ctx) {kind : WILNodeKind} {type : WILType}
    {name : Option String} {payload : WILNodePayload} {inputs : List (Option Nat × WILEdgeKind)}
    (filled : none ∉ inputs.map (·.1)) :
    NoNullInput (wilBuild ctx kind type name payload inputs).1 := by
  intro user
  rw [targets_build]
  split
  · exact filled
  · exact present user

/-- Removing an input leaves no null input. -/
theorem NoNullInput.removeInput (present : NoNullInput ctx) (node index : Nat) :
    NoNullInput (wilNodeRemoveInput ctx node index) := by
  intro user member
  rw [targets_removeInput] at member
  split at member
  · exact present user (List.mem_of_mem_eraseIdx member)
  · exact present user member

/-- Removing several inputs leaves no null input. -/
theorem NoNullInput.removeInputs {node : Nat} (count : Nat) (present : NoNullInput ctx) :
    NoNullInput (removeInputs node count ctx) := by
  induction count generalizing ctx with
  | zero => exact present
  | succ count next => exact next (present.removeInput node count)

/-- A graph call that passes no null pointer leaves no null input. -/
theorem NoNullInput.call (present : NoNullInput ctx) (consistent : DefUse ctx) {call : WILCall}
    (passes : none ∉ call.pointers) : NoNullInput (call.run ctx) := by
  cases call with
  -- A new leaf has no inputs.
  | makeConstInt | makeConstFloat | makeConstBool | makeUndef | makeParam | makeStart =>
    intro user member
    exact present user (congrFun (targets_create ctx _ _ _ _) user ▸ member)
  -- A builder has the inputs that were passed.
  | makeAlloca type size =>
    refine present.build ?_
    cases size with
    | none => exact absurd (List.mem_singleton_self _) passes
    | some size => exact passes
  | makeRegion | makePhi | makeCall | makeCallIndirect =>
    refine present.build ?_
    simpa [WILCall.pointers, Function.comp_def] using passes
  -- The node has its old inputs and the one that was passed.
  | addInput node input edgeKind =>
    intro user member
    simp only [WILCall.run, targets_addInput] at member
    split at member
    · rcases List.mem_append.mp member with old | new
      · exact present user old
      · exact passes (.tail _ new)
    · exact present user member
  | replaceInput node index newInput =>
    cases newInput with
    | none => exact absurd (.tail _ (.head _)) passes
    | some replacement => exact present.replaceInput node index replacement
  | removeInput node index => exact present.removeInput node index
  -- Replacing a null pointer, or by one, is not among these calls.
  | replaceAllUses oldNode newNode =>
    cases oldNode with
    | none => exact absurd (.head _) passes
    | some oldNode =>
      cases newNode with
      | none => exact absurd (.tail _ (.head _)) passes
      | some newNode => exact present.replaceAllUses consistent oldNode newNode
  -- A removed node loses its inputs.
  | remove node =>
    simp only [WILCall.run, wilNodeRemove]
    split
    · intro user
      rw [targets_modifyNode_of_inputs]
      · exact present.removeInputs _ user
      · intro stored
        rfl
    · exact present
  | _ => exact present.build passes

/-- A graph that passes verification has no null input. -/
theorem verifyInputs_present {ref : Nat} {node : WILNode} {index : Nat}
    {slots : List WILInputSlot} (accepted : verifyInputs ctx ref node index slots = none) :
    ∀ slot ∈ slots, slot.node ≠ none := by
  induction slots generalizing index with
  | nil => exact fun _ member => absurd member List.not_mem_nil
  | cons slot rest next =>
    rw [verifyInputs] at accepted
    -- A null slot or a missing use is the first error.
    split at accepted
    · cases accepted
    · next input read =>
      split at accepted
      · intro other member
        rcases List.mem_cons.mp member with rfl | later
        · rw [read]
          exact Option.some_ne_none input
        · exact next accepted other later
      · cases accepted

/-- The nodes of an accepted graph are accepted one by one. -/
theorem verifyNodes_accepts {index : Nat} {nodes : List WILNode}
    (accepted : verifyNodes ctx index nodes = none) (offset : Nat) (node : WILNode)
    (found : nodes[offset]? = some node) : wilVerifyNode ctx (index + offset) node = none := by
  induction nodes generalizing index offset with
  | nil => cases found
  | cons first rest next =>
    obtain ⟨head, tail⟩ := Option.or_eq_none_iff.mp accepted
    -- The node is the first one, or is found behind it.
    cases offset with
    | zero =>
      cases found
      exact head
    | succ offset =>
      rw [show index + (offset + 1) = index + 1 + offset by omega]
      exact next tail offset found

/-- The verifier accepts a consistent graph exactly if it has no null input. -/
theorem DefUse.verified_iff (consistent : DefUse ctx) :
    (wilVerifyGraph ctx).2 = true ↔ NoNullInput ctx := by
  refine ⟨fun accepted user member => ?_, consistent.verified⟩
  have all : verifyNodes ctx 0 ctx.graph = none := by
    simpa only [wilVerifyGraph, Option.isNone_iff_eq_none] using accepted
  -- A node past the end has no targets, and one inside was checked with all its slots.
  cases found : ctx.graph[user]? with
  | none =>
    rw [targets_outside (List.getElem?_eq_none_iff.mp found)] at member
    cases member
  | some node =>
    have checked := verifyNodes_accepts all user node found
    have identity := consistent.identified user node found
    simp only [wilVerifyNode, identity, Nat.zero_add, ne_eq, not_true_eq_false, if_false,
      Nat.add_one_ne_zero, Option.or_eq_none_iff] at checked
    rw [targets_of_node found] at member
    obtain ⟨slot, stored, null⟩ := List.mem_map.mp member
    exact verifyInputs_present checked.1 slot stored null

end Edits

end Wirble
