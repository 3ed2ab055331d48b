import Wirble.Wrs.Acyclic

/-! Runs of rules of any patterns: which rules keep every graph acyclic, and when passes return. -/

namespace Wirble

open WILContext

section Apply

variable {equivalent : WILContext → Option Nat → Option Nat → Bool}

/-- What rewriting below a pointer leaves behind, with the replacement it returns if any. -/
structure Rewired (before : WILRewriteSystem) (pointer : Option Nat) (after : WILRewriteSystem)
    (result : Option Nat) : Prop where
  keeps : Keeps pointer before.ctx after.ctx
  rules : after.rules = before.rules
  strategy : after.strategy = before.strategy
  inside : ∀ ref, result = some ref → ref < after.ctx.graph.length
  below : ∀ ref, result = some ref → ∀ sink < before.ctx.graph.length,
    Dag.Reach after.ctx.succ (some ref) (some sink) →
    Dag.Reach before.ctx.succ pointer (some sink)
  redirected : ∀ user < before.ctx.graph.length, ∀ index : Nat,
    (before.ctx.targets user)[index]? = some pointer →
    (after.ctx.targets user)[index]? = some (result.or pointer)

variable {sys sys' : WILRewriteSystem} {rule : WILRewriteRule}

/-- A binding that is looked up is one of the bindings that were made. -/
theorem lookup_mem {subst : WILSubstitution} {name : String} {ref : Nat}
    (found : wilSubstitutionLookup subst (some name) = some ref) :
    (name, some ref) ∈ subst := by
  obtain ⟨bound, read, equal⟩ := Option.bind_eq_some_iff.mp
    (show (subst.lookup name).bind id = some ref from found)
  obtain rfl : bound = some ref := equal
  obtain ⟨front, back, whole, -⟩ := List.lookup_eq_some_iff.mp read
  rw [whole]
  simp

/-- A right-hand side that is a name returns the node of that name and builds nothing. -/
theorem wrsApplyPattern_rootName {subst : WILSubstitution} {ctx : WILContext} {name : String} :
    ∀ {pattern : WILPattern}, pattern.rootName = some name →
      wrsApplyPattern subst pattern ctx = (ctx, wilSubstitutionLookup subst (some name))
  | .var _, named | .sequence _ _, named => by
    rw [WILPattern.rootName] at named
    rw [wrsApplyPattern, named]
  | .refinement base, named => by
    rw [wrsApplyPattern]
    have inner : base.rootName = some name := named
    exact wrsApplyPattern_rootName inner

/-- The names that the right-hand side of a root-free rule reads avoid the matched node, unless
the right-hand side is that node. -/
theorem RootFree.avoids (free : RootFree rule) {ctx : WILContext}
    (grounded : Dag.Grounded ctx.succ) {node : Nat} {subst : WILSubstitution}
    (matched : wrsMatchPattern equivalent ctx [] rule.lhs (some node) = some subst) :
    (∃ name, rule.rhs.rootName = some name ∧
      wilSubstitutionLookup subst (some name) = some node) ∨
    ∀ name ∈ rule.rhs.reads,
      ¬ Dag.Reach ctx.succ (wilSubstitutionLookup subst (some name)) (some node) := by
  obtain ⟨rooted, unrooted⟩ := wrsMatchPattern_root matched
  cases root : rule.lhs.rootName with
  | none =>
    -- Every binding lies properly below the node.
    refine .inr fun name _ path => ?_
    cases read : wilSubstitutionLookup subst (some name) with
    | none => exact not_reach_none (read ▸ path)
    | some ref =>
      rw [read] at path
      exact grounded.acyclic _ ((unrooted root _ (lookup_mem read)).trans_left path)
  | some own =>
    obtain rfl := rooted own root
    by_cases own_rhs : rule.rhs.rootName = some own
    · exact .inl ⟨own, own_rhs, by simp [wilSubstitutionLookup]⟩
    · -- The only bound name is not read at all.
      refine .inr fun name member path => ?_
      have other : name ≠ own := by
        rintro rfl
        rcases WILPattern.mem_reads_iff.mp member with top | under
        · exact own_rhs top
        · exact free name root under
      have unbound : wilSubstitutionLookup [(own, some node)] (some name) = none := by
        simp [wilSubstitutionLookup, List.lookup_cons, beq_eq_false_iff_ne.mpr other]
      rw [unbound] at path
      exact not_reach_none path

/-- A well-formed graph without cycles, and plain rules that are root-free where they are enabled. -/
structure Safe (sys : WILRewriteSystem) : Prop where
  consistent : DefUse sys.ctx
  grounded : Dag.Grounded sys.ctx.succ
  rules : ∀ rule ∈ sys.rules, rule.action = none ∧ (rule.enabled = true → RootFree rule)

/-- Rewriting keeps the system safe. -/
theorem Rewired.safe {pointer result : Option Nat} (safe : Safe sys)
    (rewired : Rewired sys pointer sys' result) : Safe sys' where
  consistent := rewired.keeps.consistent
  grounded := rewired.keeps.grounded
  rules := rewired.rules ▸ safe.rules

/-- A pass that does nothing rewires nothing. -/
theorem Safe.unchanged {pointer : Option Nat} (safe : Safe sys) :
    Rewired sys pointer sys none :=
  ⟨.refl safe.consistent safe.grounded, rfl, rfl, nofun, nofun, fun _ _ _ found => found⟩

/-- Rewriting below a node in two stages, of which the first returns nothing. -/
theorem Rewired.trans {middle : WILRewriteSystem} {node : Nat} {result : Option Nat}
    (closed : sys.ctx.Closed) (inside : node < sys.ctx.graph.length)
    (left : Rewired sys (some node) middle none)
    (right : Rewired middle (some node) sys' result) : Rewired sys (some node) sys' result where
  -- What the first stage did below the node, the second one finds there.
  keeps := left.keeps.trans closed (fun _ equal => by cases equal; exact inside) right.keeps
  rules := right.rules.trans left.rules
  strategy := right.strategy.trans left.strategy
  inside := right.inside
  below ref equal sink sinkOld path :=
    left.keeps.reach node inside sink sinkOld
      (right.below ref equal sink (Nat.lt_of_lt_of_le sinkOld left.keeps.longer) path)
  redirected user userOld index found :=
    right.redirected user (Nat.lt_of_lt_of_le userOld left.keeps.longer) index
      (left.redirected user userOld index found)

/-- The pointers that a match at a node may bind, and null, as names without a binding read. -/
def Bindable (ctx : WILContext) (node : Nat) (pointer : Option Nat) : Prop :=
  pointer = none ∨ Dag.Reach ctx.succ (some node) pointer

/-- A node that may be bound lies below the matched one. -/
theorem Bindable.below {ctx : WILContext} {node ref : Nat} (bindable : Bindable ctx node (some ref)) :
    Dag.Reach ctx.succ (some node) (some ref) := by
  rcases bindable with absent | path
  · cases absent
  · exact path

/-- A node that may be bound is one of the graph. -/
theorem Bindable.inside {ctx : WILContext} {node ref : Nat} (closed : ctx.Closed)
    (inside : node < ctx.graph.length) (bindable : Bindable ctx node (some ref)) :
    ref < ctx.graph.length := by
  rcases Relation.reflTransGen_iff_eq_or_transGen.mp bindable.below with same | path
  · cases same
    exact inside
  · exact closed.inside_of_below path

/-- A match binds only what may be bound. -/
theorem Bindable.lookup {ctx : WILContext} {node : Nat} {pattern : WILPattern}
    {subst : WILSubstitution}
    (run : wrsMatchPattern equivalent ctx [] pattern (some node) = some subst) (name : String) :
    Bindable ctx node (wilSubstitutionLookup subst (some name)) := by
  -- All bindings lie below the node.
  cases read : wilSubstitutionLookup subst (some name) with
  | none => exact .inl rfl
  | some ref =>
    obtain ⟨more, split, entries⟩ := wrsMatchPattern_binds run
    rw [List.nil_append] at split
    exact .inr (entries _ (split ▸ lookup_mem read))

/-- A node that is replaced by itself is not changed, and nor is anything else. -/
theorem Rewired.itself (consistent : DefUse sys.ctx) (grounded : Dag.Grounded sys.ctx.succ)
    {node : Nat} (inside : node < sys.ctx.graph.length) (ctx : sys'.ctx = sys.ctx)
    (rules : sys'.rules = sys.rules) (strategy : sys'.strategy = sys.strategy) :
    Rewired sys (some node) sys' (some node) where
  -- The context is the same, so all that is asked holds of it already.
  keeps := by
    rw [ctx]
    exact .refl consistent grounded
  rules := rules
  strategy := strategy
  inside ref equal := by
    cases equal
    rw [ctx]
    exact inside
  below ref equal sink _ path := by
    cases equal
    rwa [ctx] at path
  redirected user _ index found := by
    rw [ctx, found]
    rfl

/-- One application of a root-free rule. -/
theorem wrsApplyRule_rewired (free : rule.enabled = true → RootFree rule)
    (plain : rule.action = none)
    (consistent : DefUse sys.ctx) (grounded : Dag.Grounded sys.ctx.succ) {node : Nat}
    (inside : node < sys.ctx.graph.length) {result : Option Nat}
    (applied : wrsApplyRule equivalent sys rule (some node) = (sys', result)) :
    Rewired sys (some node) sys' result := by
  -- A rule that is disabled, does not match or builds nothing replaces nothing.
  have same : Rewired sys (some node) sys none :=
    ⟨.refl consistent grounded, rfl, rfl, fun _ made => absurd made (Option.some_ne_none _).symm,
      fun _ made => absurd made (Option.some_ne_none _).symm, fun _ _ _ found => found⟩
  simp only [wrsApplyRule, plain] at applied
  split at applied
  · cases applied
    exact same
  next enabled =>
  split at applied
  · cases applied
    exact same
  next found matched =>
  obtain ⟨subst, run, rfl⟩ := Option.map_eq_some_iff.mp matched
  have bound := Bindable.lookup run
  have below : ∀ ref, Bindable sys.ctx node (some ref) → _ := fun _ => Bindable.below
  have old : ∀ ref, Bindable sys.ctx node (some ref) → _ :=
    fun _ => Bindable.inside consistent.closed inside
  obtain ⟨built, placed⟩ := wrsApplyPattern_grows (.inl rfl : Bindable sys.ctx node none)
    consistent (Nat.le_refl _) (fun name (_ : name ∈ rule.rhs.vars) => bound name) old
  have avoids := (free (by simpa using enabled)).avoids grounded run
  simp only [wilSubstitutionApply] at applied
  cases build : wrsApplyPattern subst rule.rhs sys.ctx with
  | mk middle replacement =>
    rw [build] at built placed
    cases replacement with
    | none =>
      simp only [build] at applied
      cases applied
      refine ⟨.of_built built consistent grounded old, rfl, rfl,
        fun _ made => absurd made (Option.some_ne_none _).symm,
        fun _ made => absurd made (Option.some_ne_none _).symm, ?_⟩
      intro user userOld _ found
      rw [built.targets user userOld, found]
      rfl
    | some replacement =>
      simp only [build] at applied
      cases applied
      rcases avoids with ⟨name, top, read⟩ | avoid
      · -- The node is replaced by itself, so that nothing changes.
        rw [wrsApplyPattern_rootName top, read] at build
        cases build
        have unchanged : wilNodeReplaceAllUses sys.ctx (some node) (some node) = sys.ctx := by
          simp [wilNodeReplaceAllUses]
        exact .itself consistent grounded inside unchanged rfl rfl
      · -- The replacement avoids the node, so that no cycle arises.
        have apart := wrsApplyPattern_avoids (.inl rfl : Bindable sys.ctx node none) consistent
          (Nat.le_refl _) bound old inside avoid
        rw [build] at apart
        obtain ⟨keeps, reaches⟩ :=
          built.keeps_replaceAllUses consistent grounded below old placed apart
        refine ⟨keeps, rfl, rfl, ?_, ?_, ?_⟩
        · rintro ref ⟨⟩
          show replacement < (wilNodeReplaceAllUses middle _ _).graph.length
          rw [(sameNodes_replaceAllUses middle _ _).length]
          exact placed.2 _ rfl
        · rintro ref ⟨⟩
          exact reaches
        · intro user userOld index found
          show ((wilNodeReplaceAllUses middle _ _).targets user)[index]? = _
          rw [built.consistent.targets_replaceAllUses, built.targets user userOld,
            List.getElem?_map, found]
          simp [redirect]

/-- Rules tried in order: those that return nothing may leave unused nodes behind. -/
theorem applyFirst_rewired {rules : List WILRewriteRule}
    (free : ∀ rule ∈ rules, rule.action = none ∧ (rule.enabled = true → RootFree rule))
    (safe : Safe sys) {node : Nat} (inside : node < sys.ctx.graph.length) {result : Option Nat}
    (applied : applyFirst equivalent rules sys (some node) = (sys', result)) :
    Rewired sys (some node) sys' result := by
  -- Induction on the rules still to be tried, with the system the earlier ones left.
  induction rules generalizing sys with
  | nil =>
    cases applied
    exact safe.unchanged
  | cons rule rest next =>
    cases first : wrsApplyRule equivalent sys rule (some node) with
    | mk middle outcome =>
      obtain ⟨plain, freeRule⟩ := free rule (.head _)
      have tried := wrsApplyRule_rewired freeRule plain safe.consistent safe.grounded inside first
      cases outcome with
      | some replacement =>
        simp only [applyFirst, first] at applied
        cases applied
        exact tried
      | none =>
        simp only [applyFirst, first] at applied
        exact tried.trans safe.consistent.closed inside
          (next (fun other member => free other (.tail _ member)) (tried.safe safe)
            (Nat.lt_of_lt_of_le inside tried.keeps.longer) applied)

/-- No rule applies to the null pointer. -/
theorem applyFirst_null (rules : List WILRewriteRule) :
    applyFirst equivalent rules sys none = (sys, none) := by
  induction rules with
  | nil => rfl
  | cons rule rest next => simpa [applyFirst, wrsApplyRule] using next

/-- One application at any pointer. -/
theorem wilRewriteSystemApplyAt_rewired (safe : Safe sys) {pointer result : Option Nat}
    (inside : ∀ ref, pointer = some ref → ref < sys.ctx.graph.length)
    (applied : wilRewriteSystemApplyAt equivalent sys pointer = (sys', result)) :
    Rewired sys pointer sys' result := by
  cases pointer with
  | some node => exact applyFirst_rewired safe.rules safe (inside node rfl) applied
  | none =>
    rw [wilRewriteSystemApplyAt, applyFirst_null] at applied
    cases applied
    exact safe.unchanged

/-- An input slot of a node lies below it. -/
theorem edge_inputAt {ctx : WILContext} {node index : Nat} (valid : index < ctx.inputCount node) :
    Dag.Edge ctx.succ (some node) (ctx.inputAt node index) := by
  rw [inputCount_eq] at valid
  rw [inputAt_of_valid valid]
  exact List.getElem_mem valid

/-- Pointing a slot at what the rewriting below it returned. -/
theorem Rewired.replaceInput (safe : Safe sys) {node index replacement : Nat}
    (inside : node < sys.ctx.graph.length) (valid : index < sys.ctx.inputCount node)
    (rewired : Rewired sys (sys.ctx.inputAt node index) sys' (some replacement)) :
    Rewired sys (some node)
      { sys' with ctx := wilNodeReplaceInput sys'.ctx node index (some replacement) } none := by
  have edge := edge_inputAt valid
  have same := sameNodes_replaceInput sys'.ctx node index (some replacement)
  have edges : ∀ source sink,
      Dag.Edge (wilNodeReplaceInput sys'.ctx node index (some replacement)).succ source sink →
      Dag.Edge sys'.ctx.succ source sink ∨ source = some node ∧ sink = some replacement :=
    fun _ _ edge => edge_replaceInput edge
  -- The replacement reaches only what the slot reached, and so not the node.
  have apart : ¬ Dag.Reach sys'.ctx.succ (some replacement) (some node) := fun path =>
    safe.grounded.acyclic (some node) (.head' edge (rewired.below replacement rfl node inside path))
  have below := rewired.keeps.of_edge edge
  -- Slots of other nodes are left alone, and the node has no slot that points at itself.
  have others : ∀ user ≠ node, (wilNodeReplaceInput sys'.ctx node index
      (some replacement)).targets user = sys'.ctx.targets user := by
    intro user apartUser
    rw [targets_replaceInput, if_neg (Ne.symm apartUser)]
  refine ⟨⟨?_, ?_, ?_, ?_, ?_, ?_⟩, rewired.rules, rewired.strategy, nofun, nofun, ?_⟩
  · exact below.consistent.replaceInput
      (fun target equal => by cases equal; exact rewired.inside replacement rfl) index
  · exact below.grounded.added edges apart
  · rw [same.length]
    exact below.longer
  · intro old oldInside
    rw [targets_replaceInput, ← below.slots old oldInside]
    split <;> simp
  · intro source sourceOld sink sinkOld path
    rcases Dag.reach_of_added edges path with avoids | ⟨first, last⟩
    · exact below.reach source sourceOld sink sinkOld avoids
    · have toNode := below.reach source sourceOld node inside first
      exact (toNode.tail edge).trans (rewired.below replacement rfl sink sinkOld last)
  · intro user userOld other target found unreached
    have kept := below.frame user userOld other target found unreached
    -- The slots of the node itself all lie below it.
    have apartUser : user ≠ node := by
      rintro rfl
      exact unreached (.single (List.mem_of_getElem? found))
    rw [others user apartUser]
    exact kept
  · intro user userOld other found
    have apartUser : user ≠ node := by
      rintro rfl
      exact safe.grounded.acyclic (some user) (.single (List.mem_of_getElem? found))
    show ((wilNodeReplaceInput sys'.ctx node index (some replacement)).targets user)[other]? = _
    rw [others user apartUser]
    exact rewired.keeps.frame user userOld other node found fun path =>
      safe.grounded.acyclic (some node) (.head' edge path)

/-- One round of the loop over the inputs of a node: rewrite below a slot, and point the slot at
the replacement if there is one. -/
def storeResult (node index : Nat) (sys : WILRewriteSystem) (result : Option Nat) :
    WILRewriteSystem :=
  match result with
  | none => sys
  | some replacement =>
    { sys with ctx := wilNodeReplaceInput sys.ctx node index (some replacement) }

/-- Storing the result of an input rewires the node above it. -/
theorem Rewired.stored (safe : Safe sys) {node index : Nat} {result : Option Nat}
    (inside : node < sys.ctx.graph.length) (valid : index < sys.ctx.inputCount node)
    (rewired : Rewired sys (sys.ctx.inputAt node index) sys' result) :
    Rewired sys (some node) (storeResult node index sys' result) none := by
  cases result with
  | none =>
    -- The slot is below the node, and nothing of what was rewritten leads back to it.
    have edge := edge_inputAt valid
    exact ⟨rewired.keeps.of_edge edge, rewired.rules, rewired.strategy, nofun, nofun,
      fun user userOld other found => rewired.keeps.frame user userOld other node found fun path =>
        safe.grounded.acyclic (some node) (.head' edge path)⟩
  | some replacement => exact rewired.replaceInput safe inside valid

/-- One round of the loop over the inputs recurses and stores the result. -/
theorem rewriteInputs_succ
    (recurse : WILRewriteSystem → Option Nat → Option (WILRewriteSystem × Option Nat))
    (node fuel index : Nat) (sys : WILRewriteSystem) :
    rewriteInputs recurse node (fuel + 1) index sys =
      if index < sys.ctx.inputCount node then
        (recurse sys (sys.ctx.inputAt node index)).bind fun outcome =>
          rewriteInputs recurse node fuel (index + 1) (storeResult node index outcome.1 outcome.2)
      else some sys := by
  rw [rewriteInputs]
  split
  · cases recurse sys (sys.ctx.inputAt node index) with
    | none => rfl
    | some outcome =>
      obtain ⟨after, result⟩ := outcome
      cases result <;> rfl
  · rfl

/-- The pointers that a pass may be given. -/
def Inside (ctx : WILContext) (pointer : Option Nat) : Prop :=
  ∀ ref, pointer = some ref → ref < ctx.graph.length

/-- The inputs of a node may be given to a pass. -/
theorem Safe.inside_input (safe : Safe sys) {node index : Nat}
    (valid : index < sys.ctx.inputCount node) : Inside sys.ctx (sys.ctx.inputAt node index) := by
  intro ref equal
  have edge := edge_inputAt valid
  rw [equal] at edge
  exact safe.consistent.closed node ref edge

/-- The loop over the inputs of a node. -/
theorem rewriteInputs_rewired
    {recurse : WILRewriteSystem → Option Nat → Option (WILRewriteSystem × Option Nat)}
    (recursed : ∀ {sys pointer sys' result}, Safe sys → Inside sys.ctx pointer →
      recurse sys pointer = some (sys', result) → Rewired sys pointer sys' result)
    {node : Nat} (fuel index : Nat) (safe : Safe sys) (inside : node < sys.ctx.graph.length)
    (looped : rewriteInputs recurse node fuel index sys = some sys') :
    Rewired sys (some node) sys' none := by
  -- Induction on the rounds: each one rewrites below the node, as the later ones do.
  induction fuel generalizing index sys with
  | zero => cases looped
  | succ fuel next =>
    rw [rewriteInputs_succ] at looped
    split at looped
    · next valid =>
      obtain ⟨⟨middle, result⟩, round, rest⟩ := Option.bind_eq_some_iff.mp looped
      have stored := (recursed safe (safe.inside_input valid) round).stored safe inside valid
      exact stored.trans safe.consistent.closed inside
        (next (index + 1) (stored.safe safe) (Nat.lt_of_lt_of_le inside stored.keeps.longer) rest)
    · cases looped
      exact safe.unchanged

/-- One pass keeps the graph acyclic, in either visiting order. -/
theorem wrsApplyRecursive_rewired (fuel : Nat) {pointer result : Option Nat} (safe : Safe sys)
    (inside : Inside sys.ctx pointer)
    (passed : wrsApplyRecursive equivalent fuel sys pointer = some (sys', result)) :
    Rewired sys pointer sys' result := by
  -- Induction on the depth of the recursion.
  induction fuel generalizing sys sys' pointer result with
  | zero => cases passed
  | succ fuel next =>
    cases pointer with
    | none =>
      cases passed
      exact safe.unchanged
    | some node =>
      have nodeInside := inside node rfl
      rw [wrsApplyRecursive] at passed
      split at passed
      · -- Innermost: the inputs first, and then the node itself.
        obtain ⟨middle, looped, applied⟩ := Option.map_eq_some_iff.mp passed
        have below := rewriteInputs_rewired next fuel 0 safe nodeInside looped
        have here := wilRewriteSystemApplyAt_rewired (below.safe safe)
          (fun ref equal => by
            cases equal
            exact Nat.lt_of_lt_of_le nodeInside below.keeps.longer) applied
        exact below.trans safe.consistent.closed nodeInside here
      · -- Otherwise the node itself, and the inputs only when nothing applied.
        cases tried : wilRewriteSystemApplyAt equivalent sys (some node) with
        | mk middle outcome =>
          have here := wilRewriteSystemApplyAt_rewired safe inside tried
          cases outcome with
          | some replacement =>
            simp only [tried] at passed
            cases passed
            exact here
          | none =>
            simp only [tried] at passed
            obtain ⟨last, looped, equal⟩ := Option.map_eq_some_iff.mp passed
            cases equal
            exact here.trans safe.consistent.closed nodeInside
              (rewriteInputs_rewired next fuel 0 (here.safe safe)
                (Nat.lt_of_lt_of_le nodeInside here.keeps.longer) looped)

end Apply

end Wirble
