import Wirble.Wrs.Passes
import Wirble.Wrs.Normalize

/-! Calls of the rewrite engine: the graphs they leave are acyclic, and recursions over them
return. -/

namespace Wirble

open WILContext

/-! More fuel gives the same answer. -/

section Fuel

variable {equivalent : WILContext → Option Nat → Option Nat → Bool}

/-- More fuel for the inputs, and more calls to come, give the same result. -/
theorem rewriteInputs_more
    {recurse recurse' : WILRewriteSystem → Option Nat → Option (WILRewriteSystem × Option Nat)}
    (agree : ∀ sys pointer out, recurse sys pointer = some out → recurse' sys pointer = some out)
    {node fuel more index : Nat} (enough : fuel ≤ more) {sys sys' : WILRewriteSystem}
    (looped : rewriteInputs recurse node fuel index sys = some sys') :
    rewriteInputs recurse' node more index sys = some sys' := by
  -- Every round repeats with the larger fuel.
  induction fuel generalizing more index sys with
  | zero => cases looped
  | succ fuel next =>
    obtain ⟨more, rfl⟩ : ∃ rest, more = rest + 1 := ⟨more - 1, by omega⟩
    rw [rewriteInputs_succ] at looped ⊢
    split at looped
    · next valid =>
      obtain ⟨outcome, round, rest⟩ := Option.bind_eq_some_iff.mp looped
      rw [if_pos valid, agree _ _ _ round]
      exact next (Nat.le_of_succ_le_succ enough) rest
    · next invalid =>
      rw [if_neg invalid]
      exact looped

/-- A pass that returned returns the same with more fuel. -/
theorem wrsApplyRecursive_more {fuel more : Nat} (enough : fuel ≤ more) {sys : WILRewriteSystem}
    {pointer : Option Nat} {out : WILRewriteSystem × Option Nat}
    (passed : wrsApplyRecursive equivalent fuel sys pointer = some out) :
    wrsApplyRecursive equivalent more sys pointer = some out := by
  -- Induction on the depth of the recursion that returned.
  induction fuel generalizing more sys pointer out with
  | zero => cases passed
  | succ fuel next =>
    obtain ⟨more, rfl⟩ : ∃ rest, more = rest + 1 := ⟨more - 1, by omega⟩
    have less := Nat.le_of_succ_le_succ enough
    cases pointer with
    | none => exact passed
    | some node =>
      rw [wrsApplyRecursive] at passed ⊢
      split at passed
      · next innermost =>
        -- The loop over the inputs returned, so it does with more fuel.
        obtain ⟨middle, looped, applied⟩ := Option.map_eq_some_iff.mp passed
        rw [if_pos innermost, rewriteInputs_more (fun _ _ _ => next less) less looped,
          Option.map_some, applied]
      · next outermost =>
        rw [if_neg outermost]
        cases tried : wilRewriteSystemApplyAt equivalent sys (some node) with
        | mk middle outcome =>
          cases outcome with
          | some replacement =>
            -- The node was replaced without looking at its inputs.
            simp only [tried] at passed ⊢
            exact passed
          | none =>
            simp only [tried] at passed ⊢
            obtain ⟨last, looped, equal⟩ := Option.map_eq_some_iff.mp passed
            rw [rewriteInputs_more (fun _ _ _ => next less) less looped, Option.map_some, equal]

end Fuel

/-! The test of the whole graph. -/

section Test

variable {equivalent : WILContext → Option Nat → Option Nat → Bool} {sys : WILRewriteSystem}

/-- The test of a list has a result if every test of an input has one. -/
theorem allNormal_isSome {test : Option Nat → Option Bool} {inputs : List (Option Nat)}
    (each : ∀ input ∈ inputs, (test input).isSome = true) :
    (wilRewriteSystemIsGraphNormalForm.allNormal test inputs).isSome = true := by
  induction inputs with
  | nil => rfl
  | cons input rest next =>
    rw [wilRewriteSystemIsGraphNormalForm.allNormal]
    -- The test goes on behind a normal input, and stops at another one.
    split
    · exact next fun other member => each other (.tail _ member)
    · exact each input (.head _)

/-- On a grounded graph the test of the whole graph returns from every pointer. -/
theorem isGraphNormalForm_returns (grounded : Dag.Grounded sys.ctx.succ) (pointer : Option Nat) :
    ∃ fuel, ∀ more, fuel ≤ more →
      (wilRewriteSystemIsGraphNormalForm equivalent sys more pointer).isSome = true := by
  -- Induction along the edges: one more than the inputs need is enough.
  induction pointer using grounded.induction with
  | _ pointer next =>
    cases pointer with
    | none =>
      -- The null pointer needs one round.
      refine ⟨1, fun more enough => ?_⟩
      obtain ⟨more, rfl⟩ : ∃ rest, more = rest + 1 := ⟨more - 1, by omega⟩
      rfl
    | some node =>
      -- Enough fuel for all inputs is the largest amount that one of them needs.
      have each : ∀ input ∈ sys.ctx.targets node, _ := fun input member => next input member
      obtain ⟨fuel, inputs⟩ := Dag.exists_common_bound
        (fun fuel input => ∀ more, fuel ≤ more →
          (wilRewriteSystemIsGraphNormalForm equivalent sys more input).isSome = true)
        (fun enough returns more larger => returns more (Nat.le_trans enough larger)) each
      refine ⟨fuel + 1, fun more enough => ?_⟩
      obtain ⟨more, rfl⟩ : ∃ rest, more = rest + 1 := ⟨more - 1, by omega⟩
      rw [wilRewriteSystemIsGraphNormalForm]
      split
      · exact allNormal_isSome fun input member =>
          inputs input member more (Nat.le_of_succ_le_succ enough)
      · rfl

end Test

/-! Applications that fail leave every slot alone. -/

/-- A well-formed graph that only gained nodes. -/
structure Grown (before after : WILContext) : Prop where
  consistent : DefUse after
  longer : before.graph.length ≤ after.graph.length
  targets : ∀ old < before.graph.length, after.targets old = before.targets old

/-- A well-formed graph grows into itself. -/
theorem Grown.refl {ctx : WILContext} (consistent : DefUse ctx) : Grown ctx ctx :=
  ⟨consistent, Nat.le_refl _, fun _ _ => rfl⟩

/-- Growing is transitive. -/
theorem Grown.trans {before middle after : WILContext} (left : Grown before middle)
    (right : Grown middle after) : Grown before after where
  consistent := right.consistent
  longer := Nat.le_trans left.longer right.longer
  targets old inside := by
    rw [right.targets old (Nat.lt_of_lt_of_le inside left.longer), left.targets old inside]

section Fail

variable {equivalent : WILContext → Option Nat → Option Nat → Bool}
  {sys sys' : WILRewriteSystem}

/-- A rule that fails at a node only left fresh nodes behind. -/
theorem wrsApplyRule_fails {rule : WILRewriteRule} (plain : rule.action = none)
    (consistent : DefUse sys.ctx) {node : Nat} (inside : node < sys.ctx.graph.length)
    (applied : wrsApplyRule equivalent sys rule (some node) = (sys', none)) :
    Grown sys.ctx sys'.ctx := by
  simp only [wrsApplyRule, plain] at applied
  split at applied
  · cases applied
    exact .refl consistent
  split at applied
  · cases applied
    exact .refl consistent
  next found matched =>
  obtain ⟨subst, run, rfl⟩ := Option.map_eq_some_iff.mp matched
  -- The right-hand side may have been built in part before it returned null.
  obtain ⟨built, -⟩ := wrsApplyPattern_grows (.inl rfl : Bindable sys.ctx node none)
    consistent (Nat.le_refl _) (fun name (_ : name ∈ rule.rhs.vars) => Bindable.lookup run name)
    fun _ => Bindable.inside consistent.closed inside
  simp only [wilSubstitutionApply] at applied
  -- The rule fails only where nothing was built as replacement.
  cases build : wrsApplyPattern subst rule.rhs sys.ctx with
  | mk middle replacement =>
    rw [build] at built
    cases replacement with
    | none =>
      simp only [build] at applied
      cases applied
      exact ⟨built.consistent, built.longer, built.targets⟩
    | some replacement =>
      simp only [build] at applied
      cases applied

/-- A list of rules of which none applies only left fresh nodes behind. -/
theorem applyFirst_fails {rules : List WILRewriteRule} (plain : ∀ rule ∈ rules, rule.action = none)
    (consistent : DefUse sys.ctx) {node : Nat} (inside : node < sys.ctx.graph.length)
    (applied : applyFirst equivalent rules sys (some node) = (sys', none)) :
    Grown sys.ctx sys'.ctx := by
  -- Induction on the rules still to be tried.
  induction rules generalizing sys with
  | nil =>
    cases applied
    exact .refl consistent
  | cons rule rest next =>
    -- The first rule failed, as the whole list did.
    cases first : wrsApplyRule equivalent sys rule (some node) with
    | mk middle outcome =>
      cases outcome with
      | some replacement =>
        simp only [applyFirst, first] at applied
        cases applied
      | none =>
        simp only [applyFirst, first] at applied
        have failed := wrsApplyRule_fails (plain rule (.head _)) consistent inside first
        exact failed.trans (next (fun other member => plain other (.tail _ member))
          failed.consistent (Nat.lt_of_lt_of_le inside failed.longer) applied)

end Fail

/-! What passes do, one step after another. -/

section Moves

variable (equivalent : WILContext → Option Nat → Option Nat → Bool)

/-- One step of a pass, and whether it replaces a node. -/
inductive RewriteMove : Bool → WILRewriteSystem → WILRewriteSystem → Prop where
  | failed {sys sys' : WILRewriteSystem} {pointer : Option Nat} (inside : Inside sys.ctx pointer)
      (applied : wilRewriteSystemApplyAt equivalent sys pointer = (sys', none)) :
      RewriteMove false sys sys'
  /-- A slot is pointed at what it points at already. -/
  | stored {sys : WILRewriteSystem} {user index target : Nat}
      (found : (sys.ctx.targets user)[index]? = some (some target)) :
      RewriteMove false sys
        { sys with ctx := wilNodeReplaceInput sys.ctx user index (some target) }
  | replaced {sys sys' : WILRewriteSystem} {pointer : Option Nat} {replacement : Nat}
      (inside : Inside sys.ctx pointer)
      (applied : wilRewriteSystemApplyAt equivalent sys pointer = (sys', some replacement)) :
      RewriteMove true sys sys'

/-- Any number of steps. -/
def RewriteMoves : WILRewriteSystem → WILRewriteSystem → Prop :=
  Relation.ReflTransGen fun before after => ∃ replaced, RewriteMove equivalent replaced before after

/-- Any number of steps of which one at least replaces a node. -/
def RewriteProgress (before after : WILRewriteSystem) : Prop :=
  ∃ tried done, RewriteMoves equivalent before tried ∧ RewriteMove equivalent true tried done ∧
    RewriteMoves equivalent done after

/-- Nodes cannot be replaced for ever. -/
def RewritingEnds (sys : WILRewriteSystem) : Prop :=
  Acc (fun after before => RewriteProgress equivalent before after) sys

variable {equivalent} {sys sys' : WILRewriteSystem}

/-- Storing the pointer that a slot already holds changes no slot. -/
theorem targets_stored {user index target : Nat}
    (found : (sys.ctx.targets user)[index]? = some (some target)) :
    (wilNodeReplaceInput sys.ctx user index (some target)).targets = sys.ctx.targets := by
  funext other
  rw [targets_replaceInput]
  -- Only the slots of the user could change, and the stored pointer is already there.
  split
  · next same =>
    rw [← same]
    obtain ⟨valid, read⟩ := List.getElem?_eq_some_iff.mp found
    rw [← read, List.set_getElem_self]
  · rfl

/-- A move keeps a graph safe. -/
theorem Safe.move (safe : Safe sys) {replaced : Bool}
    (moved : RewriteMove equivalent replaced sys sys') : Safe sys' := by
  cases moved with
  | failed inside applied => exact (wilRewriteSystemApplyAt_rewired safe inside applied).safe safe
  | replaced inside applied => exact (wilRewriteSystemApplyAt_rewired safe inside applied).safe safe
  | @stored _ user index target found =>
    -- Storing an input where it stands changes no edge.
    have same := targets_stored found
    refine ⟨safe.consistent.replaceInput (fun ref equal => ?_) index, ?_, safe.rules⟩
    · cases equal
      exact safe.consistent.closed user target (List.mem_of_getElem? found)
    · have edges : (wilNodeReplaceInput sys.ctx user index (some target)).succ = sys.ctx.succ := by
        funext pointer
        cases pointer with
        | none => rfl
        | some node => exact congrFun same node
      show Dag.Grounded (wilNodeReplaceInput sys.ctx user index (some target)).succ
      rw [edges]
      exact safe.grounded

/-- A run of moves keeps a graph safe. -/
theorem Safe.moves (safe : Safe sys) (moved : RewriteMoves equivalent sys sys') : Safe sys' := by
  induction moved with
  | refl => exact safe
  | tail _ last next => exact next.move last.choose_spec

/-- Steps that replace nothing leave every slot alone. -/
theorem Safe.grown (safe : Safe sys)
    (moved : Relation.ReflTransGen (RewriteMove equivalent false) sys sys') :
    Grown sys.ctx sys'.ctx := by
  -- Induction on the steps, each of which starts at a safe system.
  have steps : Safe sys' ∧ Grown sys.ctx sys'.ctx := by
    induction moved with
    | refl => exact ⟨safe, .refl safe.consistent⟩
    | tail _ last next =>
      obtain ⟨safe, grown⟩ := next
      have after := safe.move last
      refine ⟨after, grown.trans ?_⟩
      -- A step was an attempt that failed, or a store that put nothing new.
      cases last with
      | @failed _ _ pointer inside applied =>
        cases pointer with
        | none =>
          rw [wilRewriteSystemApplyAt, applyFirst_null] at applied
          cases applied
          exact .refl safe.consistent
        | some node =>
          exact applyFirst_fails (fun rule member => (safe.rules rule member).1)
            safe.consistent (inside node rfl) applied
      | @stored _ user index target found =>
        have same := targets_stored found
        refine ⟨after.consistent, ?_, fun old _ => congrFun same old⟩
        exact Nat.le_of_eq (sameNodes_replaceInput _ user index (some target)).length.symm
  exact steps.2

/-- Steps replace nothing at all or make progress. -/
theorem RewriteMoves.quiet_or_progress (moved : RewriteMoves equivalent sys sys') :
    Relation.ReflTransGen (RewriteMove equivalent false) sys sys' ∨
      RewriteProgress equivalent sys sys' := by
  induction moved with
  | refl => exact .inl .refl
  | @tail middle after before last next =>
    obtain ⟨replaced, last⟩ := last
    -- Once something was replaced, the run has made progress.
    rcases next with quiet | ⟨tried, done, first, replaces, rest⟩
    · cases replaced with
      | false => exact .inl (quiet.tail last)
      | true => exact .inr ⟨middle, after, before, last, .refl⟩
    · exact .inr ⟨tried, done, first, replaces, rest.tail ⟨replaced, last⟩⟩

end Moves

/-! Passes return when rewriting ends. -/

section Return

variable {equivalent : WILContext → Option Nat → Option Nat → Bool}
  {sys sys' : WILRewriteSystem}

/-- Applying at a node is a run of moves. -/
theorem wilRewriteSystemApplyAt_moves {pointer result : Option Nat} (inside : Inside sys.ctx pointer)
    (applied : wilRewriteSystemApplyAt equivalent sys pointer = (sys', result)) :
    RewriteMoves equivalent sys sys' := by
  cases result with
  | none => exact .single ⟨false, .failed inside applied⟩
  | some replacement => exact .single ⟨true, .replaced inside applied⟩

/-- A valid index names the slot that the interface reads. -/
theorem getElem?_inputAt {ctx : WILContext} {node index : Nat}
    (valid : index < ctx.inputCount node) :
    (ctx.targets node)[index]? = some (ctx.inputAt node index) := by
  rw [inputCount_eq] at valid
  rw [inputAt_of_valid valid, List.getElem?_eq_getElem valid]

/-- After the rewriting below a slot, the slot points at the replacement already. -/
theorem storeResult_moves {node index : Nat} {result : Option Nat}
    (inside : node < sys.ctx.graph.length) (valid : index < sys.ctx.inputCount node)
    (rewired : Rewired sys (sys.ctx.inputAt node index) sys' result) :
    RewriteMoves equivalent sys' (storeResult node index sys' result) := by
  cases result with
  | none => exact .refl
  | some replacement =>
    -- The slot shows the replacement since all uses were redirected.
    have found := rewired.redirected node inside index (getElem?_inputAt valid)
    exact .single ⟨false, .stored found⟩

/-- Rewriting the inputs of a node is a run of moves if every call for an input is one. -/
theorem rewriteInputs_moves
    {recurse : WILRewriteSystem → Option Nat → Option (WILRewriteSystem × Option Nat)}
    (recursed : ∀ {sys pointer sys' result}, Safe sys → Inside sys.ctx pointer →
      recurse sys pointer = some (sys', result) →
      Rewired sys pointer sys' result ∧ RewriteMoves equivalent sys sys')
    {node : Nat} (fuel index : Nat) (safe : Safe sys) (inside : node < sys.ctx.graph.length)
    (looped : rewriteInputs recurse node fuel index sys = some sys') :
    RewriteMoves equivalent sys sys' := by
  -- Induction on the rounds: the steps below a slot, the store, and the later rounds.
  induction fuel generalizing index sys with
  | zero => cases looped
  | succ fuel next =>
    rw [rewriteInputs_succ] at looped
    split at looped
    · next valid =>
      obtain ⟨⟨middle, result⟩, round, rest⟩ := Option.bind_eq_some_iff.mp looped
      obtain ⟨rewired, moved⟩ := recursed safe (safe.inside_input valid) round
      have stored := rewired.stored safe inside valid
      exact (moved.trans (storeResult_moves inside valid rewired)).trans
        (next (index + 1) (stored.safe safe) (Nat.lt_of_lt_of_le inside stored.keeps.longer) rest)
    · cases looped
      exact .refl

/-- A pass is a sequence of steps. -/
theorem wrsApplyRecursive_steps (fuel : Nat) {pointer result : Option Nat} (safe : Safe sys)
    (inside : Inside sys.ctx pointer)
    (passed : wrsApplyRecursive equivalent fuel sys pointer = some (sys', result)) :
    RewriteMoves equivalent sys sys' := by
  -- Induction on the depth of the recursion.
  induction fuel generalizing sys sys' pointer result with
  | zero => cases passed
  | succ fuel next =>
    -- The loop over the inputs is a sequence of steps by the induction.
    have loop : ∀ {sys sys' : WILRewriteSystem} {node : Nat}, Safe sys →
        node < sys.ctx.graph.length →
        rewriteInputs (wrsApplyRecursive equivalent fuel) node fuel 0 sys = some sys' →
        RewriteMoves equivalent sys sys' := fun safe inside looped =>
      rewriteInputs_moves (fun safe inside passed =>
        ⟨wrsApplyRecursive_rewired fuel safe inside passed, next safe inside passed⟩)
        fuel 0 safe inside looped
    cases pointer with
    | none =>
      cases passed
      exact .refl
    | some node =>
      have nodeInside := inside node rfl
      rw [wrsApplyRecursive] at passed
      split at passed
      · obtain ⟨middle, looped, applied⟩ := Option.map_eq_some_iff.mp passed
        have below := rewriteInputs_rewired (wrsApplyRecursive_rewired fuel) fuel 0 safe nodeInside
          looped
        -- Innermost: the steps of the loop, and then the one at the node.
        refine (loop safe nodeInside looped).trans
          (wilRewriteSystemApplyAt_moves (fun ref equal => ?_) applied)
        cases equal
        exact Nat.lt_of_lt_of_le nodeInside below.keeps.longer
      · cases tried : wilRewriteSystemApplyAt equivalent sys (some node) with
        | mk middle outcome =>
          -- Outermost: the step at the node, and then those of the loop.
          have here := wilRewriteSystemApplyAt_moves inside tried
          have kept := wilRewriteSystemApplyAt_rewired safe inside tried
          cases outcome with
          | some replacement =>
            simp only [tried] at passed
            cases passed
            exact here
          | none =>
            simp only [tried] at passed
            obtain ⟨last, looped, equal⟩ := Option.map_eq_some_iff.mp passed
            cases equal
            exact here.trans (loop (kept.safe safe)
              (Nat.lt_of_lt_of_le nodeInside kept.keeps.longer) looped)

variable (equivalent) in
/-- With enough fuel the pass below the pointer returns. -/
def PassReturns (sys : WILRewriteSystem) (pointer : Option Nat) : Prop :=
  ∃ fuel out, wrsApplyRecursive equivalent fuel sys pointer = some out

/-- The loop over the inputs returns when the passes below them do, whatever steps come first. -/
theorem rewriteInputs_returns {node : Nat}
    (below : ∀ middle, RewriteMoves equivalent sys middle →
      ∀ index < middle.ctx.inputCount node, PassReturns equivalent middle (middle.ctx.inputAt node index))
    (safe : Safe sys) (inside : node < sys.ctx.graph.length) (index : Nat) :
    ∃ fuel after, rewriteInputs (wrsApplyRecursive equivalent fuel) node fuel index sys = some after := by
  -- Induction on the number of slots still to be visited, which no round changes.
  generalize remaining : sys.ctx.inputCount node - index = rounds
  induction rounds generalizing sys index with
  | zero =>
    refine ⟨1, sys, ?_⟩
    rw [rewriteInputs_succ, if_neg (by omega)]
  | succ rounds next =>
    have valid : index < sys.ctx.inputCount node := by omega
    -- The pass below this slot returns, and leaves a safe system.
    obtain ⟨fuel, ⟨middle, result⟩, round⟩ := below sys .refl index valid
    have inputInside := safe.inside_input valid
    have rewired := wrsApplyRecursive_rewired fuel safe inputInside round
    have stored := rewired.stored safe inside valid
    have moved := (wrsApplyRecursive_steps fuel safe inputInside round).trans
      (storeResult_moves inside valid rewired)
    -- Storing its result changes no number of slots.
    have count : (storeResult node index middle result).ctx.inputCount node =
        sys.ctx.inputCount node := by
      rw [inputCount_eq, inputCount_eq, stored.keeps.slots node inside]
    obtain ⟨more, after, rest⟩ := next (fun last steps => below last (moved.trans steps))
      (stored.safe safe) (Nat.lt_of_lt_of_le inside stored.keeps.longer) (index + 1) (by omega)
    -- The larger of the two fuels serves the round and the rest of the loop.
    refine ⟨max fuel more + 1, after, ?_⟩
    have large : wrsApplyRecursive equivalent (max fuel more + 1) sys (sys.ctx.inputAt node index) =
        some (middle, result) := wrsApplyRecursive_more (by omega) round
    rw [rewriteInputs_succ, if_pos valid, large]
    exact rewriteInputs_more (fun _ _ _ => wrsApplyRecursive_more (by omega)) (by omega) rest

/-- On a graph without cycles a pass returns when rewriting ends. -/
theorem wrsApplyRecursive_returns (ends : RewritingEnds equivalent sys) (safe : Safe sys)
    {pointer : Option Nat} (inside : Inside sys.ctx pointer) :
    PassReturns equivalent sys pointer := by
  -- Induction on the replacements still to come, and within it along the edges of the graph.
  induction ends generalizing pointer with
  | intro sys _ later =>
    -- It is enough to look at systems that steps without a replacement lead to.
    suffices each : ∀ middle, Relation.ReflTransGen (RewriteMove equivalent false) sys middle →
        PassReturns equivalent middle pointer from each sys .refl
    induction pointer using safe.grounded.induction with
    | _ pointer next =>
      intro start quiet
      have startMoves : RewriteMoves equivalent sys start :=
        Relation.ReflTransGen.mono (fun _ _ move => ⟨false, move⟩) _ _ quiet
      have startSafe := safe.moves startMoves
      cases pointer with
      | none => exact ⟨1, _, rfl⟩
      | some node =>
        have nodeInside := inside node rfl
        have startInside : node < start.ctx.graph.length :=
          Nat.lt_of_lt_of_le nodeInside (safe.grown quiet).longer
        -- Below the node there are old inputs as long as nothing is replaced.
        have below : ∀ middle, RewriteMoves equivalent sys middle →
            ∀ index < middle.ctx.inputCount node,
              PassReturns equivalent middle (middle.ctx.inputAt node index) := by
          intro middle moved index valid
          -- Either nothing has been replaced yet, or rewriting has made progress.
          have middleSafe := safe.moves moved
          rcases moved.quiet_or_progress with still | progress
          · have edge := edge_inputAt valid
            have old : middle.ctx.inputAt node index ∈ sys.ctx.targets node := by
              rw [← (safe.grown still).targets node nodeInside]
              exact edge
            refine next _ old (fun ref equal => ?_) middle still
            rw [equal] at old
            exact safe.consistent.closed node ref old
          · exact later middle progress middleSafe (middleSafe.inside_input valid)
        -- The loop over the inputs returns, before or after the attempt at the node.
        by_cases innermost : start.strategy = .innermost
        · obtain ⟨fuel, after, looped⟩ := rewriteInputs_returns
            (fun middle moved => below middle (startMoves.trans moved)) startSafe startInside 0
          refine ⟨fuel + 1, wilRewriteSystemApplyAt equivalent after (some node), ?_⟩
          rw [wrsApplyRecursive, if_pos innermost, looped, Option.map_some]
        · cases tried : wilRewriteSystemApplyAt equivalent start (some node) with
          | mk middle outcome =>
            cases outcome with
            | some replacement =>
              refine ⟨1, (middle, some replacement), ?_⟩
              simp only [wrsApplyRecursive, if_neg innermost, tried]
            | none =>
              have pointerInside : Inside start.ctx (some node) := by
                intro ref equal
                cases equal
                exact startInside
              have here := wilRewriteSystemApplyAt_moves pointerInside tried
              have kept := wilRewriteSystemApplyAt_rewired startSafe pointerInside tried
              obtain ⟨fuel, after, looped⟩ := rewriteInputs_returns
                (fun last moved => below last ((startMoves.trans here).trans moved))
                (kept.safe startSafe) (Nat.lt_of_lt_of_le startInside kept.keeps.longer) 0
              refine ⟨fuel + 1, (after, none), ?_⟩
              simp only [wrsApplyRecursive, if_neg innermost, tried, looped, Option.map_some]

end Return

/-! Sequences of calls. -/

section Calls

variable (equivalent : WILContext → Option Nat → Option Nat → Bool)

/-- The systems that calls of the engine on nodes of the graph lead to. -/
inductive RewriteCalls (sys : WILRewriteSystem) : WILRewriteSystem → Prop where
  | start : RewriteCalls sys sys
  | applyAt {before after : WILRewriteSystem} {node result : Option Nat}
      (earlier : RewriteCalls sys before) (inside : Inside before.ctx node)
      (applied : wilRewriteSystemApplyAt equivalent before node = (after, result)) :
      RewriteCalls sys after
  | apply {before after : WILRewriteSystem} {root : Option Nat} {fuel : Nat}
      (earlier : RewriteCalls sys before) (inside : Inside before.ctx root)
      (applied : wilRewriteSystemApply equivalent fuel before root = some after) :
      RewriteCalls sys after

/-- No cycle, and so no recursion that goes down for ever. -/
structure KeptAcyclic (sys : WILRewriteSystem) : Prop where
  acyclic : sys.ctx.Acyclic
  tests : ∀ root, ∃ fuel verdict,
    wilRewriteSystemIsGraphNormalForm equivalent sys fuel root = some verdict
  passes : RewritingEnds equivalent sys → ∀ root, Inside sys.ctx root →
    PassReturns equivalent sys root

variable {equivalent} {sys sys' : WILRewriteSystem}

/-- One call at a node is a sequence of calls. -/
theorem RewriteCalls.single {node : Option Nat} (inside : Inside sys.ctx node) :
    RewriteCalls equivalent sys (wilRewriteSystemApplyAt equivalent sys node).1 := by
  cases applied : wilRewriteSystemApplyAt equivalent sys node with
  | mk after result => exact .applyAt .start inside applied

/-- Every sequence of calls keeps a system safe. -/
theorem RewriteCalls.safe (calls : RewriteCalls equivalent sys sys') (safe : Safe sys) :
    Safe sys' := by
  induction calls with
  -- A call at one node, or on a whole graph, keeps the system safe.
  | start => exact safe
  | applyAt _ inside applied next =>
    exact (wilRewriteSystemApplyAt_rewired next inside applied).safe next
  | @apply before after root fuel _ inside applied next =>
    obtain ⟨⟨last, result⟩, passed, same⟩ := Option.map_eq_some_iff.mp applied
    obtain rfl : last = after := same
    exact (wrsApplyRecursive_rewired fuel next inside passed).safe next

/-- A safe graph stays acyclic. -/
theorem Safe.keptAcyclic (safe : Safe sys) : KeptAcyclic equivalent sys where
  acyclic := safe.grounded.acyclic
  tests root := by
    -- The depth of the graph bounds the test.
    obtain ⟨fuel, returns⟩ : ∃ fuel, ∀ more, fuel ≤ more →
        (wilRewriteSystemIsGraphNormalForm equivalent sys more root).isSome = true :=
      isGraphNormalForm_returns safe.grounded root
    obtain ⟨verdict, tested⟩ := Option.isSome_iff_exists.mp (returns fuel (Nat.le_refl _))
    exact ⟨fuel, verdict, tested⟩
  passes ends _ inside := wrsApplyRecursive_returns ends safe inside

/-- A rule that builds an operator over the matched node makes every node it is applied at part of
a cycle. -/
theorem cycle_of_not_rootFree {rule : WILRewriteRule} (plain : rule.action = none)
    (enabled : rule.enabled = true) (rooted : ¬ RootFree rule) (alone : sys.rules = [rule])
    (consistent : DefUse sys.ctx) {node : Nat} (inside : node < sys.ctx.graph.length) :
    ¬ (wilRewriteSystemApplyAt equivalent sys (some node)).1.ctx.Acyclic := by
  simp only [RootFree, not_forall, not_not] at rooted
  obtain ⟨name, root, under⟩ := rooted
  have run : wrsMatchPattern equivalent sys.ctx [] rule.lhs (some node) = some [(name, some node)] :=
    wrsMatchPattern_rootName root
  have bound := Bindable.lookup run
  have old : ∀ ref, Bindable sys.ctx node (some ref) → _ :=
    fun _ => Bindable.inside consistent.closed inside
  have null : Bindable sys.ctx node none := .inl rfl
  -- The replacement is a fresh node above the matched one.
  obtain ⟨fresh, built, new, path⟩ :=
    wrsApplyPattern_underOperator null consistent (Nat.le_refl _) bound old name under
  have grows := (wrsApplyPattern_grows null consistent (Nat.le_refl _)
    (fun name (_ : name ∈ rule.rhs.vars) => bound name) old).1
  have read : wilSubstitutionLookup [(name, some node)] (some name) = some node := by
    simp [wilSubstitutionLookup]
  rw [read] at path
  have apart : fresh ≠ node := by omega
  -- The only rule applies, so the uses of the node are redirected.
  have result : (wilRewriteSystemApplyAt equivalent sys (some node)).1.ctx =
      wilNodeReplaceAllUses (wrsApplyPattern [(name, some node)] rule.rhs sys.ctx).1 (some node)
        (some fresh) := by
    simp [wilRewriteSystemApplyAt, alone, applyFirst, wrsApplyRule, enabled, plain, wilPatternMatch,
      run, wilSubstitutionApply, built]
  rw [result]
  generalize (wrsApplyPattern [(name, some node)] rule.rhs sys.ctx).1 = middle at grows path
  have slots : ∀ user, (wilNodeReplaceAllUses middle (some node) (some fresh)).targets user =
      (middle.targets user).map (redirect node fresh) :=
    grows.consistent.targets_replaceAllUses node fresh
  -- The last edge of the path down to the node is redirected to where the path starts.
  have kept : ∀ source sink, Dag.Edge middle.succ source sink → sink ≠ some node →
      Dag.Edge (wilNodeReplaceAllUses middle (some node) (some fresh)).succ source sink := by
    intro source sink edge other
    -- The slot holds another target and is not redirected.
    cases source with
    | none => cases edge
    | some user =>
      show sink ∈ (wilNodeReplaceAllUses middle (some node) (some fresh)).targets user
      rw [slots]
      exact List.mem_map.mpr ⟨sink, edge, if_neg other⟩
  have moved : ∀ source, Dag.Edge middle.succ source (some node) →
      Dag.Edge (wilNodeReplaceAllUses middle (some node) (some fresh)).succ source
        (some fresh) := by
    intro source edge
    cases source with
    | none => cases edge
    | some user =>
      show some fresh ∈ (wilNodeReplaceAllUses middle (some node) (some fresh)).targets user
      rw [slots]
      exact List.mem_map.mpr ⟨some node, edge, if_pos rfl⟩
  intro acyclic
  -- The fresh node lies above the matched one, whose uses now lead back to it.
  rcases Relation.reflTransGen_iff_eq_or_transGen.mp path with same | down
  · exact apart (Option.some.inj same).symm
  · exact acyclic (some fresh) (Dag.transGen_of_redirected kept moved down)

/-- A graph of one parameter. -/
def oneParam : WILContext := runCalls (empty 7) [.makeParam 0 .i32 none]

/-- One parameter is a well-formed graph. -/
theorem oneParam_consistent : DefUse oneParam := (defUse_empty 7).calls _ (by decide)

/-- One parameter has no cycle. -/
theorem oneParam_acyclic : oneParam.Acyclic := Ordered.acyclic (by decide)

/-- The parameter is a node of the graph. -/
theorem oneParam_inside : Inside oneParam (some 0) := by
  intro ref equal
  cases equal
  decide

/-- For every class of plain rules that validation accepts: calls of the engine keep all graphs
acyclic, and the recursions over them return, exactly when no enabled rule of the class builds an
operator over the node it is applied at. -/
theorem rewriting_acyclic_iff (equivalent : WILContext → Option Nat → Option Nat → Bool)
    (accepted : WILRewriteRule → Prop)
    (validated : ∀ rule, accepted rule → rule.action = none ∧ wilRuleValidate rule = true) :
    (∀ sys : WILRewriteSystem, (∀ rule ∈ sys.rules, accepted rule) → DefUse sys.ctx →
      sys.ctx.Acyclic → ∀ after, RewriteCalls equivalent sys after →
        KeptAcyclic equivalent after) ↔
      ∀ rule, accepted rule → rule.enabled = true → RootFree rule := by
  constructor
  · intro keeps rule member enabled
    by_contra rooted
    -- One application at the only node of a graph closes a cycle.
    let sys : WILRewriteSystem := { wilRewriteSystemCreate oneParam with rules := [rule] }
    have kept := keeps sys (fun other only => List.mem_singleton.mp only ▸ member)
      oneParam_consistent oneParam_acyclic _ (.single oneParam_inside)
    have cyclic : ¬ (wilRewriteSystemApplyAt equivalent sys (some 0)).1.ctx.Acyclic :=
      cycle_of_not_rootFree (validated rule member).1 enabled rooted rfl oneParam_consistent
        (oneParam_inside 0 rfl)
    exact cyclic kept.acyclic
  · intro free sys members consistent acyclic after calls
    have safe : Safe sys := ⟨consistent, acyclic.grounded, fun rule member =>
      ⟨(validated rule (members rule member)).1, free rule (members rule member)⟩⟩
    exact (calls.safe safe).keptAcyclic

/-- Cancelling a double negation leaves a graph without cycles. -/
theorem rewriting_acyclic_iff_neg_neg :
    let equivalent : WILContext → Option Nat → Option Nat → Bool := fun _ left right => left == right
    let sys : WILRewriteSystem := { wilRewriteSystemCreate (runCalls (empty 7)
      [.makeParam 0 .i32 none, .makeUnary .neg (some 0), .makeUnary .neg (some 1)]) with
        rules := [cancelNegation] }
    KeptAcyclic equivalent (wilRewriteSystemApplyAt equivalent sys (some 2)).1 := by
  intro equivalent sys
  -- The rule reads a name of its own left-hand side, and keeps it properly below the root.
  refine (rewriting_acyclic_iff equivalent (· = cancelNegation) ?_).mpr ?_ sys ?_ ?_ ?_ _
    (.single ?_)
  · rintro _ rfl
    exact ⟨rfl, by decide⟩
  · rintro _ rfl _
    decide
  · exact fun rule member => List.mem_singleton.mp member
  · exact (defUse_empty 7).calls _ (by decide)
  · exact Ordered.acyclic (by decide)
  · intro ref equal
    cases equal
    decide

/-- A sequence variable at the root matches every node, as a variable does. -/
def negateAnything : WILRewriteRule :=
  wilRuleCreateSimple "negate-anything" (.sequence (some "x") .wildcard)
    (.node .neg [wilPatVar "x"])

/-- Validation accepts the rule, and negating a parameter in place closes a cycle. -/
theorem rewriting_not_acyclic :
    ¬ ∀ (equivalent : WILContext → Option Nat → Option Nat → Bool) (sys : WILRewriteSystem),
      (∀ rule ∈ sys.rules, rule.action = none ∧ wilRuleValidate rule = true) →
      DefUse sys.ctx → sys.ctx.Acyclic → ∀ after, RewriteCalls equivalent sys after →
        after.ctx.Acyclic := by
  intro claimed
  let equivalent : WILContext → Option Nat → Option Nat → Bool := fun _ left right => left == right
  let sys : WILRewriteSystem := { wilRewriteSystemCreate oneParam with rules := [negateAnything] }
  have simple : ∀ rule ∈ sys.rules, rule.action = none ∧ wilRuleValidate rule = true := by
    intro rule member
    obtain rfl := List.mem_singleton.mp member
    exact ⟨rfl, by decide⟩
  have acyclic := claimed equivalent sys simple oneParam_consistent oneParam_acyclic _
    (.single oneParam_inside)
  -- The right-hand side is an operator over the root, so the replaced node is below its
  -- replacement.
  have rooted : ¬ RootFree negateAnything := by decide
  have cyclic : ¬ (wilRewriteSystemApplyAt equivalent sys (some 0)).1.ctx.Acyclic :=
    cycle_of_not_rootFree rfl rfl rooted rfl oneParam_consistent (oneParam_inside 0 rfl)
  exact cyclic acyclic

end Calls

end Wirble
