import Wirble.Wrs.Accounts
import Wirble.Wrs.RuleObjects

/-! Sessions with a rewrite system: its rules are managed, its graph is edited, and its rules are
applied, in any order. -/

namespace Wirble

open WILContext

/-- The public calls on a rewrite system, on its rules and on its graph. -/
inductive WRSRequest where
  | graph (call : WILCall)
  | verify
  /-- An object is made, by `wilRuleCreateSimple` or by the loader of a file. -/
  | createRule (rule : WILRewriteRule)
  | addRule (ref : Nat)
  | addFile (rules : List Nat) (strategy : WILRewriteStrategy)
  | removeRule (ruleName : String)
  | clearRules
  | enableRule (name : String)
  | disableRule (name : String)
  | setStrategy (strategy : WILRewriteStrategy)
  | resetStats
  | applyRule (ruleName : String) (node : Option Nat)
  | applyAt (node : Option Nat)
  | apply (fuel : Nat) (root : Option Nat)
  | applyToFixpoint (fuel maxIterations : Nat) (root : Option Nat)
  | normalize (fuel maxIterations : Nat) (node : Option Nat)

namespace WRSRequest

section Run

variable (equivalent : WILContext → Option Nat → Option Nat → Bool) (lib : Equinox)

/-- Perform one call, nothing when the fuel does not suffice. -/
def run (store : WRSStore) : WRSRequest → Option WRSStore
  | graph call => some { store with ctx := call.run store.ctx }
  | verify => some { store with ctx := (wilVerifyGraph store.ctx).1 }
  | createRule rule => some (store.createRule rule)
  | addRule ref => some (store.addRule ref)
  | addFile rules strategy => some (store.addFile rules strategy)
  | removeRule ruleName => some (store.removeRule ruleName)
  | clearRules => some store.clearRules
  | enableRule name => some (store.enableRule name)
  | disableRule name => some (store.disableRule name)
  | setStrategy strategy => some (store.setStrategy strategy)
  | resetStats => some store.resetStats
  | applyRule ruleName node =>
    some (store.write (wilRewriteSystemApplyRule equivalent store.system ruleName node).1)
  | applyAt node => some (store.write (wilRewriteSystemApplyAt equivalent store.system node).1)
  | apply fuel root => (wilRewriteSystemApply equivalent fuel store.system root).map store.write
  | applyToFixpoint fuel maxIterations root =>
    (wilRewriteSystemApplyToFixpoint equivalent fuel maxIterations store.system root).map
      fun after => store.write after.1
  | normalize fuel maxIterations node =>
    (wilRewriteSystemNormalize equivalent (fun ctx => wrsNormalizeWithEgraph ctx lib fuel) fuel
      store.system node maxIterations).map fun after => store.write after.1

end Run

/-- The rules whose objects a call makes. -/
def created : WRSRequest → List WILRewriteRule
  | createRule rule => [rule]
  | _ => []

/-- The pointers to rule objects passed to a call. -/
def refs : WRSRequest → List Nat
  | addRule ref => [ref]
  | addFile rules _ => rules
  | _ => []

/-- The node pointers passed to a call. -/
def pointers : WRSRequest → List (Option Nat)
  | graph call => call.pointers
  | applyRule _ node | applyAt node | normalize _ _ node => [node]
  | apply _ root | applyToFixpoint _ _ root => [root]
  | _ => []

/-- Node pointers are null or nodes of the graph, rule pointers are objects, and no rule has an
action. -/
structure Fits (store : WRSStore) (request : WRSRequest) : Prop where
  pointers : ∀ ref : Nat, some ref ∈ request.pointers → ref < store.ctx.graph.length
  refs : ∀ ref ∈ request.refs, ref < store.objects.length
  created : ∀ rule ∈ request.created, rule.action = none

instance (store : WRSStore) (request : WRSRequest) : Decidable (request.Fits store) :=
  -- Only the finitely many pointers and rules passed have to be looked at.
  decidable_of_iff ((∀ pointer ∈ request.pointers, ∀ ref ∈ pointer, ref < store.ctx.graph.length) ∧
      (∀ ref ∈ request.refs, ref < store.objects.length) ∧
      ∀ rule ∈ request.created, rule.action.isNone = true)
    ⟨fun checks => ⟨fun ref member => checks.1 (some ref) member ref rfl, checks.2.1,
        fun rule member => Option.isNone_iff_eq_none.mp (checks.2.2 rule member)⟩,
      fun fits => ⟨fun _ member ref equal => fits.pointers ref (equal ▸ member), fits.refs,
        fun rule member => Option.isNone_iff_eq_none.mpr (fits.created rule member)⟩⟩

/-- Neither a null pointer nor a rule that could store one is passed. -/
structure Fills (request : WRSRequest) : Prop where
  pointers : none ∉ request.pointers
  created : ∀ rule ∈ request.created, rule.Complete

instance (request : WRSRequest) : Decidable request.Fills :=
  decidable_of_iff (request.pointers.all (·.isSome) = true ∧
      (request.created.all fun rule => decide rule.Complete) = true) (by
    constructor
    · rintro ⟨pointers, created⟩
      refine ⟨fun null => ?_, fun rule member => ?_⟩
      · cases List.all_eq_true.mp pointers none null
      · exact of_decide_eq_true (List.all_eq_true.mp created rule member)
    · intro fills
      refine ⟨List.all_eq_true.mpr fun pointer member => ?_,
        List.all_eq_true.mpr fun rule member => decide_eq_true (fills.created rule member)⟩
      cases pointer with
      | none => exact absurd member fills.pointers
      | some ref => rfl)

end WRSRequest

section Sessions

variable (equivalent : WILContext → Option Nat → Option Nat → Bool) (lib : Equinox)

/-- The store that calls lead to, nothing when one of them does not fit or does not return. -/
def runSession : WRSStore → List WRSRequest → Option WRSStore
  | store, [] => some store
  | store, request :: rest =>
    if request.Fits store then
      (request.run equivalent lib store).bind fun store => runSession store rest
    else none

variable {equivalent lib} {store store' : WRSStore} {request : WRSRequest}

/-! What calls write. -/

/-- Every object after an edit of one is as before, or is the edited one. -/
theorem mem_of_mem_modify {objects : List WILRewriteRule} {ref : Nat}
    {edit : WILRewriteRule → WILRewriteRule} {rule : WILRewriteRule}
    (member : rule ∈ objects.modify ref edit) : rule ∈ objects ∨ ∃ old ∈ objects, rule = edit old := by
  obtain ⟨place, read⟩ := List.mem_iff_getElem?.mp member
  rw [List.getElem?_modify] at read
  obtain ⟨old, found, same⟩ := Option.map_eq_some_iff.mp read
  split at same
  · exact .inr ⟨old, List.mem_of_getElem? found, same.symm⟩
  · exact .inl (same ▸ List.mem_of_getElem? found)

/-- Adding objects writes their counters and the table, and nothing else. -/
theorem WRSStore.addFile_keeps {property : WILRewriteRule → Prop}
    (counted : ∀ rule statsIndex, statsIndex < 256 → property rule → property { rule with statsIndex })
    (refs : List Nat) (old : ∀ rule ∈ store.objects, property rule) :
    (∀ rule ∈ (refs.foldl addRule store).objects, property rule) ∧
      (refs.foldl addRule store).ctx = store.ctx ∧
      (refs.foldl addRule store).stats = store.stats := by
  -- Induction on the objects that remain, with the store that has the others.
  induction refs generalizing store with
  | nil => exact ⟨old, rfl, rfl⟩
  | cons ref rest next =>
    rw [List.foldl_cons]
    by_cases known : ref < store.objects.length
    -- The added object gets a counter, and every other one stays as it was.
    · have added : ∀ rule ∈ (store.addRule ref).objects, property rule := by
        intro rule member
        rw [addRule, dif_pos known] at member
        rcases mem_of_mem_modify member with same | ⟨earlier, here, rfl⟩
        · exact old rule same
        · refine counted earlier _ ?_ (old earlier here)
          split <;> omega
      obtain ⟨objects, ctx, stats⟩ := next added
      refine ⟨objects, ctx.trans ?_, stats.trans ?_⟩
      · rw [addRule, dif_pos known]
        rfl
      · rw [addRule, dif_pos known]
        rfl
    · rw [addRule, dif_neg known]
      exact next old

/-- What holds of rules whatever their switch and their counter is kept by every call. -/
theorem WRSRequest.objects_keep {property : WILRewriteRule → Prop}
    (switched : ∀ rule enabled, property rule → property { rule with enabled })
    (counted : ∀ rule statsIndex, statsIndex < 256 → property rule → property { rule with statsIndex })
    (old : ∀ rule ∈ store.objects, property rule)
    (new : ∀ rule ∈ request.created, property { rule with enabled := true, statsIndex := 0 })
    (ran : request.run equivalent lib store = some store') :
    ∀ rule ∈ store'.objects, property rule := by
  have switches : ∀ name enabled, ∀ rule ∈ (store.switchRule name enabled).objects,
      property rule := by
    intro name enabled rule member
    unfold WRSStore.switchRule at member
    split at member
    · rcases mem_of_mem_modify member with same | ⟨earlier, here, rfl⟩
      · exact old rule same
      · exact switched earlier enabled (old earlier here)
    · exact old rule member
  -- Most calls do not write an object at all.
  cases request with
  -- A new object is stored behind the others.
  | createRule rule =>
    cases ran
    intro other member
    rcases List.mem_append.mp member with earlier | made
    · exact old other earlier
    · rw [List.mem_singleton.mp made]
      exact new rule (.head _)
  | addRule ref =>
    cases ran
    exact (WRSStore.addFile_keeps counted [ref] old).1
  | addFile rules strategy =>
    -- Adding and switching write one field of objects that are there.
    cases ran
    exact (@WRSStore.addFile_keeps { store with strategy } _ counted rules old).1
  | enableRule name =>
    cases ran
    exact switches name true
  | disableRule name =>
    cases ran
    exact switches name false
  -- The calls on the graph leave the objects alone.
  | graph | verify | removeRule | clearRules | setStrategy | resetStats | applyRule | applyAt =>
    cases ran
    exact old
  | apply | applyToFixpoint | normalize =>
    obtain ⟨after, -, rfl⟩ := Option.map_eq_some_iff.mp ran
    exact old

/-! Counters, use lists and inputs. -/

/-- The counters of the rules sum up to the counter of all rewrites, both modulo 2 ^ 32, and the graph
is consistent. -/
structure WRSStore.Balanced (store : WRSStore) : Prop where
  consistent : DefUse store.ctx
  objects : ∀ rule ∈ store.objects, rule.action = none ∧ rule.statsIndex < 256
  entries : store.stats.rulesApplied.length = 256
  total : store.stats.rulesApplied.sum = store.stats.totalRewrites

/-- The engine sees a balanced system through the pointers. -/
theorem WRSStore.Balanced.accounted (balanced : store.Balanced) : Accounted store.system where
  consistent := balanced.consistent
  rules rule member := balanced.objects rule (WRSStore.mem_of_mem_system member)
  entries := balanced.entries
  total := balanced.total

/-- What every call leaves of graph and counters. -/
structure Requested (request : WRSRequest) (before after : WRSStore) : Prop where
  consistent : DefUse after.ctx
  entries : after.stats.rulesApplied.length = 256
  total : after.stats.rulesApplied.sum = after.stats.totalRewrites
  present : (∀ rule ∈ before.objects, rule.Complete) → none ∉ request.pointers →
    NoNullInput before.ctx → NoNullInput after.ctx

/-- What a call of the engine leaves is written back. -/
theorem Engaged.requested {sys' : WILRewriteSystem} {result : Option Nat}
    (engaged : Engaged store.system sys' result) (balanced : store.Balanced) :
    Requested request store (store.write sys') :=
  have after := engaged.accounted balanced.accounted
  ⟨after.consistent, after.entries, after.total, fun complete _ present =>
    engaged.present (fun rule member => complete rule (WRSStore.mem_of_mem_system member)) present⟩

/-- Calls that manage the rules leave the graph alone, and may reset the counters. -/
theorem WRSStore.Balanced.managed (balanced : store.Balanced) (ctx : store'.ctx = store.ctx)
    (stats : store'.stats = store.stats ∨ store'.stats = .zero) : Requested request store store' where
  consistent := ctx ▸ balanced.consistent
  entries := by
    -- The counters are as before, or all zero.
    rcases stats with same | reset
    · exact same ▸ balanced.entries
    · rw [reset, WILRewriteStats.zero_entries]
  total := by
    rcases stats with same | reset
    · exact same ▸ balanced.total
    · rw [reset, WILRewriteStats.zero_total]
  present _ _ present := ctx ▸ present

/-- Switching a rule leaves the graph and the counters alone. -/
theorem WRSStore.Balanced.switched (balanced : store.Balanced) (name : String) (enabled : Bool) :
    Requested request store (store.switchRule name enabled) := by
  unfold WRSStore.switchRule
  split <;> exact balanced.managed rfl (.inl rfl)

/-- Adding objects leaves the graph and the counters alone. -/
theorem WRSStore.Balanced.added (balanced : store.Balanced) (refs : List Nat)
    (strategy : WILRewriteStrategy) : Requested request store (store.addFile refs strategy) := by
  obtain ⟨-, ctx, stats⟩ := @WRSStore.addFile_keeps { store with strategy } (fun _ => True)
    (fun _ _ _ _ => trivial) refs (fun _ _ => trivial)
  exact balanced.managed ctx (.inl stats)

/-- What is extracted from the e-graph is a node of the graph. -/
theorem wrsNormalizeWithEgraph_inside {ctx : WILContext} (consistent : DefUse ctx)
    {fuel maxIterations : Nat} {node best : Option Nat} (inside : Inside ctx node)
    (extracted : wrsNormalizeWithEgraph ctx lib fuel node maxIterations = some best) :
    Inside ctx best := by
  rintro picked rfl
  cases node with
  | none => cases extracted
  | some root =>
    -- It is the node that was given, or lies below it.
    obtain ⟨path, -⟩ := wrsNormalizeWithEgraph_picked extracted
    rcases Relation.reflTransGen_iff_eq_or_transGen.mp path with same | below
    · cases same
      exact inside picked rfl
    · exact consistent.closed.inside_of_below below

/-- One call of a session. -/
theorem WRSRequest.requested (balanced : store.Balanced) (fits : request.Fits store)
    (ran : request.run equivalent lib store = some store') : Requested request store store' := by
  have pointer : ∀ {node : Option Nat}, request.pointers = [node] → Inside store.ctx node := by
    rintro node passed ref rfl
    exact fits.pointers ref (passed ▸ .head _)
  have accounted := balanced.accounted
  -- There is one case for each call.
  cases request with
  | graph call =>
    cases ran
    exact ⟨balanced.consistent.call call fits.pointers, balanced.entries, balanced.total,
      fun _ passes present => present.call balanced.consistent passes⟩
  | verify =>
    cases ran
    exact ⟨⟨balanced.consistent.counted, balanced.consistent.identified⟩, balanced.entries,
      balanced.total, fun _ _ present => present⟩
  -- Managing the table changes no node and no counter.
  | createRule | removeRule | clearRules | setStrategy =>
    cases ran
    exact balanced.managed rfl (.inl rfl)
  | addRule ref =>
    cases ran
    exact balanced.added [ref] store.strategy
  | addFile rules strategy =>
    cases ran
    exact balanced.added rules strategy
  | enableRule name =>
    cases ran
    exact balanced.switched name true
  | disableRule name =>
    cases ran
    exact balanced.switched name false
  | resetStats =>
    cases ran
    exact balanced.managed rfl (.inr rfl)
  -- Applying one rule is an attempt, if a rule has that name.
  | applyRule ruleName node =>
    cases ran
    rw [wilRewriteSystemApplyRule]
    split
    · next rule found =>
      exact (wrsApplyRule_engaged accounted (List.mem_of_find?_eq_some found) (pointer rfl)
        rfl).requested balanced
    · exact balanced.managed rfl (.inl rfl)
  -- The other calls keep the accounts, as the passes do.
  | applyAt node =>
    cases ran
    exact (wilRewriteSystemApplyAt_engaged accounted (pointer rfl) rfl).requested balanced
  | apply fuel root =>
    obtain ⟨sys', applied, rfl⟩ := Option.map_eq_some_iff.mp ran
    obtain ⟨⟨after, result⟩, passed, rfl⟩ := Option.map_eq_some_iff.mp applied
    exact (wrsApplyRecursive_engaged fuel accounted (pointer rfl) passed).requested balanced
  | applyToFixpoint fuel maxIterations root =>
    obtain ⟨⟨after, result⟩, looped, rfl⟩ := Option.map_eq_some_iff.mp ran
    exact (wilRewriteSystemApplyToFixpoint_engaged fuel maxIterations accounted (pointer rfl)
      looped).requested balanced
  | normalize fuel maxIterations node =>
    obtain ⟨⟨after, result, exit⟩, normalized, rfl⟩ := Option.map_eq_some_iff.mp ran
    obtain ⟨best, extracted, looped⟩ := Option.bind_eq_some_iff.mp normalized
    -- Extraction hands back a node of the graph, or the given one.
    have picked := wrsNormalizeWithEgraph_inside balanced.consistent (pointer rfl) extracted
    have start : Inside store.ctx (best.or node) := by
      cases best with
      | none => exact pointer rfl
      | some best => exact picked
    exact (normalizeLoop_engaged fuel maxIterations accounted start looped).requested balanced

/-- Every call that fits leaves a balanced store. -/
theorem WRSStore.Balanced.next (balanced : store.Balanced) (fits : request.Fits store)
    (ran : request.run equivalent lib store = some store') : store'.Balanced := by
  have requested := WRSRequest.requested balanced fits ran
  refine ⟨requested.consistent, ?_, requested.entries, requested.total⟩
  -- Neither switches nor counters give a rule an action.
  refine WRSRequest.objects_keep (fun _ _ same => same) (fun _ _ small same => ⟨same.1, small⟩)
    balanced.objects (fun rule made => ⟨fits.created rule made, Nat.zero_lt_succ 255⟩) ran

/-- A session without null pointers and with complete rules has complete rules and no null input. -/
structure Present (store : WRSStore) : Prop where
  rules : ∀ rule ∈ store.objects, rule.Complete
  inputs : NoNullInput store.ctx

/-- Every call that passes neither a null pointer nor an incomplete rule leaves it so. -/
theorem Present.next (present : Present store) (balanced : store.Balanced)
    (fits : request.Fits store) (fills : request.Fills)
    (ran : request.run equivalent lib store = some store') : Present store' := by
  have requested := WRSRequest.requested balanced fits ran
  refine ⟨?_, requested.present present.rules fills.pointers present.inputs⟩
  exact WRSRequest.objects_keep (fun _ _ same => ⟨same.accepted, same.respects⟩)
    (fun _ _ _ same => ⟨same.accepted, same.respects⟩) present.rules
    (fun rule made => ⟨(fills.created rule made).accepted, (fills.created rule made).respects⟩) ran

/-- What a session consists of. -/
theorem runSession_cons {rest : List WRSRequest}
    (session : runSession equivalent lib store (request :: rest) = some store') :
    request.Fits store ∧ ∃ middle, request.run equivalent lib store = some middle ∧
      runSession equivalent lib middle rest = some store' := by
  rw [runSession] at session
  split at session
  · next fits => exact ⟨fits, Option.bind_eq_some_iff.mp session⟩
  · cases session

/-- A session keeps the counters balanced. -/
theorem runSession_balanced {requests : List WRSRequest} (balanced : store.Balanced)
    (session : runSession equivalent lib store requests = some store') : store'.Balanced := by
  induction requests generalizing store with
  | nil =>
    -- No request leaves the store as it is, and one request keeps the counters.
    cases session
    exact balanced
  | cons request rest next =>
    obtain ⟨fits, middle, ran, later⟩ := runSession_cons session
    exact next (balanced.next fits ran) later

/-- A session that fills all inputs leaves none of them null. -/
theorem runSession_present {requests : List WRSRequest} (balanced : store.Balanced)
    (present : Present store) (session : runSession equivalent lib store requests = some store')
    (fills : ∀ request ∈ requests, request.Fills) : Present store' := by
  -- By induction on the requests, each of which fills the inputs it passes.
  induction requests generalizing store with
  | nil =>
    cases session
    exact present
  | cons request rest next =>
    obtain ⟨fits, middle, ran, later⟩ := runSession_cons session
    obtain ⟨first, others⟩ := List.forall_mem_cons.mp fills
    exact next (balanced.next fits ran) (present.next balanced fits first ran) later others

/-- Sessions start with zero counters on an empty graph. -/
theorem balanced_create (self : Nat) : (WRSStore.create (empty self)).Balanced where
  consistent := defUse_empty self
  objects _ member := by cases member
  entries := WILRewriteStats.zero_entries
  total := WILRewriteStats.zero_total

/-- Sessions start without rules and inputs. -/
theorem present_create (self : Nat) : Present (WRSStore.create (empty self)) where
  rules _ member := by cases member
  inputs user := by simp [empty, WRSStore.create, WILContext.targets, slots]

/-- After any calls that edit a graph, manage rules without actions and apply them, use lists count
slots, ids follow the array, and the counters of the rules sum up to the counter of all rewrites, all
of them being words of 32 bits. The verifier accepts the graph exactly if no input is null, and it
does so if neither a null pointer nor a rule that could store one was ever passed. -/
theorem wrsSession_accounts (self : Nat) {requests : List WRSRequest}
    (session : runSession equivalent lib (.create (empty self)) requests = some store) :
    (∀ node user : Nat, (store.ctx.usesOf node).count user =
      (store.ctx.slots user).countP (·.node = some node)) ∧
    store.ctx.graph.map (·.id) = List.range' 1 store.ctx.graph.length ∧
    store.stats.rulesApplied.sum = store.stats.totalRewrites ∧
    ((wilVerifyGraph store.ctx).2 = true ↔ NoNullInput store.ctx) ∧
    ((∀ request ∈ requests, request.Fills) → (wilVerifyGraph store.ctx).2 = true) := by
  have balanced := runSession_balanced (balanced_create self) session
  have consistent := balanced.consistent
  refine ⟨fun node user => ?_, consistent.ids, balanced.total, consistent.verified_iff, ?_⟩
  -- Use lists count the slots that hold the node.
  · rw [consistent.counted]
    simp only [WILContext.targets, List.count, List.countP_map]
    exact List.countP_congr fun slot _ => by simp
  · intro fills
    exact consistent.verified_iff.mpr
      (runSession_present (balanced_create self) (present_create self) session fills).inputs

/-- A double negation is cancelled once the rule for it is enabled again. -/
def cancelSession : List WRSRequest :=
  [.graph (.makeParam 0 .i32 none), .graph (.makeUnary .neg (some 0)),
    .graph (.makeUnary .neg (some 1)), .graph (.makeUnary .abs (some 2)),
    .createRule cancelNegation, .addRule 0, .disableRule "neg-neg",
    .applyToFixpoint 9 4 (some 3), .enableRule "neg-neg", .applyToFixpoint 9 4 (some 3), .verify]

/-- An e-graph that merges nothing. -/
def unmerged : Equinox := ⟨fun _ _ _ left right => decide (left = right)⟩

/-- The session with the rule that cancels negations applies it once. -/
theorem cancelSession_runs :
    ((runSession (fun _ left right => left == right) unmerged
      (.create (empty 7)) cancelSession).map (·.stats.totalRewrites)) = some 1 := by
  decide +kernel

/-- The one rewrite is counted, and the verifier accepts the graph. -/
theorem wrsSession_accounts_cancel :
    ∃ store, runSession (fun _ left right => left == right) unmerged
        (.create (empty 7)) cancelSession = some store ∧
      store.stats.rulesApplied.sum = 1 ∧ (wilVerifyGraph store.ctx).2 = true := by
  obtain ⟨store, session, once⟩ := Option.map_eq_some_iff.mp cancelSession_runs
  obtain ⟨-, -, total, -, accepts⟩ := wrsSession_accounts 7 session
  exact ⟨store, session, total.trans once, accepts (by decide)⟩

/-! The rules as queues, one for each name. -/

/-- What a rule is apart from its counter, which depends on its place in a system. -/
def WILRewriteRule.content (rule : WILRewriteRule) : WILRewriteRule := { rule with statsIndex := 0 }

/-- The rule objects without their counters, and for every name the pointers that were added under it
and are still there, the oldest first. -/
@[ext] structure RuleQueues where
  objects : List WILRewriteRule
  queue : String → List Nat

namespace RuleQueues

/-- No objects and no pointers. -/
def empty : RuleQueues := { objects := [], queue := fun _ => [] }

/-- A pointer goes to the end of the queue of the name of its object. -/
def add (queues : RuleQueues) (ref : Nat) : RuleQueues :=
  match queues.objects[ref]? with
  | some rule => { queues with
      queue := Function.update queues.queue rule.name (queues.queue rule.name ++ [ref]) }
  | none => queues

/-- Set the switch of the object at the front of the queue of a name. -/
def switch (queues : RuleQueues) (name : String) (enabled : Bool) : RuleQueues :=
  match (queues.queue name).head? with
  | some ref => { queues with objects := queues.objects.modify ref ({ · with enabled }) }
  | none => queues

/-- What a call does to the queues: the engine and edits of the graph leave them alone. -/
def after (queues : RuleQueues) : WRSRequest → RuleQueues
  | .createRule rule =>
    { queues with objects := queues.objects ++ [{ rule with enabled := true, statsIndex := 0 }] }
  | .addRule ref => queues.add ref
  | .addFile rules _ => rules.foldl add queues
  | .removeRule ruleName =>
    { queues with queue := Function.update queues.queue ruleName (queues.queue ruleName).tail }
  | .clearRules => { queues with queue := fun _ => [] }
  | .enableRule name => queues.switch name true
  | .disableRule name => queues.switch name false
  | _ => queues

end RuleQueues

namespace WRSStore

/-- The pointers of a name in their order. -/
def refsNamed (store : WRSStore) (name : String) : List Nat :=
  store.table.filter (named store.objects name)

/-- The queues that a store stands for. -/
def queues (store : WRSStore) : RuleQueues where
  objects := store.objects.map (·.content)
  queue := store.refsNamed

/-- An edit of an object that keeps its name leaves all names as they were. -/
theorem named_modify (objects : List WILRewriteRule) (ref : Nat)
    {edit : WILRewriteRule → WILRewriteRule} (kept : ∀ rule, (edit rule).name = rule.name)
    (name : String) : named (objects.modify ref edit) name = named objects name := by
  funext other
  rw [named, named, List.getElem?_modify, Option.map_eq_map, Option.any_map]
  congr 1
  funext rule
  -- The edited object has the name that it had.
  by_cases here : ref = other
  · simp only [if_pos here, kept]
  · simp only [if_neg here]

/-- The contents of the objects after an edit of one. -/
theorem map_content_modify (objects : List WILRewriteRule) (ref : Nat)
    {edit edit' : WILRewriteRule → WILRewriteRule}
    (commutes : ∀ rule, (edit rule).content = edit' rule.content) :
    (objects.modify ref edit).map (·.content) = (objects.map (·.content)).modify ref edit' := by
  refine List.ext_getElem? fun place => ?_
  simp only [List.getElem?_map, List.getElem?_modify, Option.map_eq_map, Option.map_map]
  congr 1
  funext rule
  -- Only the object that is edited changes, and its content with it.
  by_cases here : ref = place
  · simp only [Function.comp_apply, if_pos here, commutes]
  · simp only [Function.comp_apply, if_neg here]

/-- Switching finds the object at the front of the queue of the name. -/
theorem queues_switchRule (store : WRSStore) (name : String) (enabled : Bool) :
    (store.switchRule name enabled).queues = store.queues.switch name enabled := by
  have front : (store.queues.queue name).head? = store.findRule name := by
    rw [findRule, ← List.head?_filter]
    rfl
  rw [RuleQueues.switch, front, switchRule]
  cases store.findRule name with
  | none => rfl
  | some ref =>
    refine RuleQueues.ext ?_ ?_
    · exact map_content_modify store.objects ref fun _ => rfl
    · -- A switch is not part of a name.
      funext other
      have names : named (store.objects.modify ref ({ · with enabled })) other =
          named store.objects other := named_modify store.objects ref (by exact fun _ => rfl) other
      exact congrArg (store.table.filter ·) names

/-- A pointer that is added goes to the end of one queue. -/
theorem queues_addRule (store : WRSStore) (ref : Nat) :
    (store.addRule ref).queues = store.queues.add ref := by
  have read : store.queues.objects[ref]? = (store.objects[ref]?).map (·.content) :=
    List.getElem?_map
  by_cases known : ref < store.objects.length
  · rw [List.getElem?_eq_getElem known, Option.map_some] at read
    rw [RuleQueues.add, read, addRule, dif_pos known]
    -- The counter of an object is part of neither its content nor its name.
    have contents : ∀ statsIndex, (store.objects.modify ref ({ · with statsIndex })).map (·.content) =
        (store.objects.map (·.content)).modify ref id :=
      fun statsIndex => map_content_modify store.objects ref fun _ => rfl
    have names : ∀ statsIndex name, named (store.objects.modify ref ({ · with statsIndex })) name =
        named store.objects name :=
      fun statsIndex name => named_modify store.objects ref (by exact fun _ => rfl) name
    refine RuleQueues.ext ?_ ?_
    · exact (contents _).trans (List.modify_id _ _)
    · funext name
      refine (congrArg (fun test => (store.table ++ [ref]).filter test) (names _ name)).trans ?_
      show _ = Function.update store.refsNamed (store.objects[ref]).name
        (store.refsNamed (store.objects[ref]).name ++ [ref]) name
      rw [List.filter_append, Function.update_apply]
      -- The pointer's own object has its name.
      have named_ref : named store.objects name ref = ((store.objects[ref]).name == name) := by
        rw [named, List.getElem?_eq_getElem known, Option.any_some]
      by_cases same : name = (store.objects[ref]).name
      · rw [if_pos same, List.filter_cons_of_pos (by rw [named_ref, same, beq_self_eq_true])]
        exact same ▸ rfl
      · rw [if_neg same, List.filter_cons_of_neg
          (by rw [named_ref, beq_iff_eq]; exact Ne.symm same), List.filter_nil, List.append_nil]
        rfl
  · rw [List.getElem?_eq_none (Nat.le_of_not_lt known)] at read
    rw [RuleQueues.add, read, addRule, dif_neg known]
    rfl

/-- Pointers are added one after the other. -/
theorem queues_addFile (refs : List Nat) (store : WRSStore) :
    (refs.foldl addRule store).queues = refs.foldl RuleQueues.add store.queues := by
  induction refs generalizing store with
  | nil => rfl
  | cons ref rest next => rw [List.foldl_cons, List.foldl_cons, next, queues_addRule]

/-- Removing takes a pointer from the front of one queue. -/
theorem queues_removeRule (store : WRSStore) (ruleName : String) :
    (store.removeRule ruleName).queues = { store.queues with
      queue := Function.update store.queues.queue ruleName (store.queues.queue ruleName).tail } := by
  refine RuleQueues.ext rfl ?_
  funext name
  show (store.table.eraseP (named store.objects ruleName)).filter (named store.objects name) =
    Function.update store.refsNamed ruleName (store.refsNamed ruleName).tail name
  rw [Function.update_apply, refsNamed, refsNamed]
  induction store.table with
  | nil => split <;> rfl
  | cons ref rest next =>
    by_cases found : named store.objects ruleName ref = true
    · rw [List.eraseP_cons_of_pos found, List.filter_cons_of_pos found, List.tail_cons]
      split
      · next same => rw [same]
      · -- An object has one name only.
        next other =>
        refine (List.filter_cons_of_neg fun again => other ?_).symm
        obtain ⟨rule, read, named⟩ := (Option.any_eq_true _ _).mp found
        obtain ⟨rule', read', named'⟩ := (Option.any_eq_true _ _).mp again
        cases read.symm.trans read'
        exact (beq_iff_eq.mp named').symm.trans (beq_iff_eq.mp named)
    · rw [List.eraseP_cons_of_neg found, List.filter_cons_of_neg found]
      by_cases same : name = ruleName
      · rw [if_pos same] at next ⊢
        rw [List.filter_cons_of_neg (same ▸ found), next]
      · rw [if_neg same] at next ⊢
        rw [List.filter_cons, List.filter_cons, next]

/-- A new object is in no queue. -/
theorem queues_createRule (store : WRSStore) (rule : WILRewriteRule) :
    (store.createRule rule).queues = { store.queues with
      objects := store.queues.objects ++ [{ rule with enabled := true, statsIndex := 0 }] } := by
  refine RuleQueues.ext ?_ ?_
  · exact List.map_append
  · funext name
    -- The pointers in the table lead to the objects from before.
    refine List.filter_congr fun ref member => ?_
    show named (store.objects ++ _) name ref = named store.objects name ref
    rw [named, named, List.getElem?_append_left (store.inside ref member)]

end WRSStore

/-- One call does to the queues of a store what it is to do. -/
theorem WRSRequest.queues (ran : request.run equivalent lib store = some store') :
    store'.queues = store.queues.after request := by
  -- There is one case for each call.
  cases request with
  | graph | verify | setStrategy | resetStats | applyRule | applyAt | clearRules =>
    cases ran
    rfl
  -- Rewriting changes the graph and the counters only.
  | apply | applyToFixpoint | normalize =>
    obtain ⟨after, -, rfl⟩ := Option.map_eq_some_iff.mp ran
    rfl
  | createRule rule =>
    cases ran
    exact store.queues_createRule rule
  | addRule ref =>
    -- Each of the others has its lemma about the store.
    cases ran
    exact store.queues_addRule ref
  | addFile rules strategy =>
    cases ran
    exact WRSStore.queues_addFile rules { store with strategy }
  | removeRule ruleName =>
    cases ran
    exact store.queues_removeRule ruleName
  | enableRule name =>
    cases ran
    exact store.queues_switchRule name true
  | disableRule name =>
    cases ran
    exact store.queues_switchRule name false

/-- A session does to the queues what its calls are to do, one after the other. -/
theorem runSession_queues {requests : List WRSRequest}
    (session : runSession equivalent lib store requests = some store') :
    store'.queues = requests.foldl RuleQueues.after store.queues := by
  induction requests generalizing store with
  | nil =>
    cases session
    rfl
  -- The first request does to the queues what it is to do, and so do the others.
  | cons request rest next =>
    obtain ⟨-, middle, ran, later⟩ := runSession_cons session
    rw [List.foldl_cons, ← WRSRequest.queues ran]
    exact next later

/-- After any calls, whatever they do to the graph in between and however often an object is added, a
name stands for the object at the front of its queue: lookup, the test of the switch and the engine
find this one, and the pointers of a name that are left in the table are those of its queue. -/
theorem wrsSession_refines_queues (self : Nat) {requests : List WRSRequest}
    (session : runSession equivalent lib (.create (empty self)) requests = some store) :
    let queues := requests.foldl RuleQueues.after .empty
    store.objects.map (·.content) = queues.objects ∧ ∀ name : String,
      store.findRule name = (queues.queue name).head? ∧
      (wilRewriteSystemFindRule store.system name).map (·.content) =
        (queues.queue name).head?.bind (queues.objects[·]?) ∧
      store.isRuleEnabled name =
        ((queues.queue name).head?.any fun ref => (queues.objects[ref]?).any (·.enabled)) ∧
      store.refsNamed name = queues.queue name := by
  intro queues
  have same : store.queues = queues := runSession_queues session
  have objects : store.objects.map (·.content) = queues.objects := congrArg (·.objects) same
  refine ⟨objects, fun name => ?_⟩
  have pointers : store.refsNamed name = queues.queue name :=
    congrFun (congrArg (·.queue) same) name
  -- The first pointer under a name is the front of its queue.
  have front : store.findRule name = (queues.queue name).head? := by
    rw [← pointers, WRSStore.refsNamed, List.head?_filter]
    rfl
  -- An object is read through its pointer, with or without its counter.
  have read : ∀ ref : Nat, queues.objects[ref]? = (store.objects[ref]?).map (·.content) := by
    intro ref
    rw [← objects]
    exact List.getElem?_map
  refine ⟨front, ?_, ?_, pointers⟩
  · rw [WRSStore.findRule_system, front, Option.map_bind]
    congr 1
    funext ref
    exact (read ref).symm
  -- The switch is read from the object that is found.
  · rw [WRSStore.isRuleEnabled, front]
    congr 1
    funext ref
    rw [read, Option.any_map]
    rfl

/-- One object is added twice, and switched off before one of its pointers is removed. -/
def sharedSession : List WRSRequest :=
  [.createRule cancelNegation, .addRule 0, .addRule 0, .disableRule "neg-neg",
    .removeRule "neg-neg"]

/-- The pointer that is left leads to the object that was switched off. -/
theorem wrsSession_refines_queues_shared :
    ∃ store, runSession (fun _ left right => left == right) unmerged
        (.create (empty 7)) sharedSession = some store ∧
      store.findRule "neg-neg" = some 0 ∧ store.isRuleEnabled "neg-neg" = false := by
  -- The session runs to its end, and the queue of the name then holds that object.
  obtain ⟨store, session⟩ := Option.isSome_iff_exists.mp
    (show (runSession (fun _ left right => left == right) unmerged (.create (empty 7))
      sharedSession).isSome = true by decide +kernel)
  obtain ⟨found, -, enabled, -⟩ := (wrsSession_refines_queues 7 session).2 "neg-neg"
  exact ⟨store, session, found.trans rfl, enabled.trans rfl⟩

end Sessions

end Wirble
