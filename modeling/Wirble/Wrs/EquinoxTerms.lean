import Wirble.Wrs.Equinox
import Wirble.Library.Dag
import Wirble.Wil.Semantics

/-! The terms that nodes become in the e-graph, and what extraction from it returns. -/

namespace Wirble

open Term WILContext

section Terms

variable (ctx : WILContext)

/-- The term of a node, which the cache and the library play no part in. -/
def wrsTerm : Nat → Option Nat → Option (Term Nat)
  | 0, _ => none
  | _ + 1, none => none
  | fuel + 1, some node =>
    if 4 < ctx.inputCount node then none
    else ((ctx.targets node).mapM (wrsTerm fuel)).map (app (wrsOpOfKind (kindAt ctx node)))

/-- The node becomes this term. -/
def HasTerm (node : Option Nat) (term : Term Nat) : Prop :=
  ∃ fuel, wrsTerm ctx fuel node = some term

variable {ctx}

/-- A term found with some fuel is found with more. -/
theorem wrsTerm_more {fuel : Nat} {node : Option Nat} {term : Term Nat}
    (found : wrsTerm ctx fuel node = some term) {more : Nat} (enough : fuel ≤ more) :
    wrsTerm ctx more node = some term := by
  induction fuel generalizing node term more with
  | zero => simp [wrsTerm] at found
  | succ fuel next =>
    obtain ⟨more, rfl⟩ : ∃ rest, more = rest + 1 := ⟨more - 1, by omega⟩
    cases node with
    | none => simp [wrsTerm] at found
    | some node =>
      rw [wrsTerm] at found ⊢
      by_cases wide : 4 < ctx.inputCount node
      · simp [wide] at found
      · simp only [wide, if_false, Option.map_eq_some_iff] at found ⊢
        obtain ⟨ids, traversed, rfl⟩ := found
        -- The inputs have their terms with the larger fuel as well.
        have repeated := Dag.mapM_some_mono traversed fun _ _ computed =>
          next computed (Nat.le_of_succ_le_succ enough)
        exact ⟨ids, repeated, rfl⟩

/-- A node has at most one term. -/
theorem HasTerm.unique {node : Option Nat} {left right : Term Nat}
    (first : HasTerm ctx node left) (second : HasTerm ctx node right) : left = right := by
  obtain ⟨fuel, found⟩ := first
  obtain ⟨fuel', found'⟩ := second
  -- With the larger amount of fuel both computations give their term.
  have large := wrsTerm_more found (Nat.le_max_left fuel fuel')
  have large' := wrsTerm_more found' (Nat.le_max_right fuel fuel')
  simpa [large] using large'

/-- The term of a node is its operator applied to the terms of its inputs. -/
theorem HasTerm.inputs {node : Nat} {term : Term Nat} (has : HasTerm ctx (some node) term) :
    ctx.inputCount node ≤ 4 ∧ ∃ ids, term = app (wrsOpOfKind (kindAt ctx node)) ids ∧
      List.Forall₂ (HasTerm ctx) (ctx.targets node) ids := by
  obtain ⟨fuel, found⟩ := has
  cases fuel with
  | zero => simp [wrsTerm] at found
  | succ fuel =>
    rw [wrsTerm] at found
    -- Nodes of more than four inputs have no term.
    by_cases wide : 4 < ctx.inputCount node
    · simp [wide] at found
    · simp only [wide, if_false, Option.map_eq_some_iff] at found
      obtain ⟨ids, traversed, rfl⟩ := found
      refine ⟨Nat.not_lt.mp wide, ids, rfl, ?_⟩
      exact (Dag.mapM_eq_some_iff.mp traversed).imp fun _ _ computed => ⟨fuel, computed⟩

/-- The terms of a node's inputs make its own term. -/
theorem HasTerm.node {node : Nat} {ids : List (Term Nat)} (narrow : ctx.inputCount node ≤ 4)
    (inputs : List.Forall₂ (HasTerm ctx) (ctx.targets node) ids) :
    HasTerm ctx (some node) (app (wrsOpOfKind (kindAt ctx node)) ids) := by
  -- One fuel serves all the inputs.
  have common : ∃ fuel, List.Forall₂ (fun input id => wrsTerm ctx fuel input = some id)
      (ctx.targets node) ids := by
    clear narrow
    generalize ctx.targets node = targets at inputs
    induction inputs with
    | nil => exact ⟨0, .nil⟩
    | cons head _ next =>
      -- The larger of the two amounts serves the first input and the others.
      obtain ⟨headFuel, found⟩ := head
      obtain ⟨tailFuel, others⟩ := next
      refine ⟨max headFuel tailFuel, .cons (wrsTerm_more found (Nat.le_max_left _ _)) ?_⟩
      exact others.imp fun _ _ computed => wrsTerm_more computed (Nat.le_max_right _ _)
  obtain ⟨fuel, traversed⟩ := common
  refine ⟨fuel + 1, ?_⟩
  rw [wrsTerm, if_neg (Nat.not_lt.mpr narrow), Dag.mapM_eq_some_iff.mpr traversed, Option.map_some]

/-- The null pointer has no term. -/
theorem HasTerm.present {node : Option Nat} {term : Term Nat} (has : HasTerm ctx node term) :
    ∃ ref, node = some ref := by
  obtain ⟨fuel, found⟩ := has
  cases node with
  | none => cases fuel <;> simp [wrsTerm] at found
  | some ref => exact ⟨ref, rfl⟩

/-- A node with a term evaluates, under any labels, with the fuel that finds the term. -/
theorem wrsTerm_evaluates {V : Type} (label : Option Nat → List V → V) {fuel : Nat}
    {node : Option Nat} {term : Term Nat} (found : wrsTerm ctx fuel node = some term) :
    ∃ inputs, Dag.eval label ctx.succ fuel node = some (label node inputs) := by
  induction fuel generalizing node term with
  | zero => simp [wrsTerm] at found
  | succ fuel next =>
    cases node with
    | none => simp [wrsTerm] at found
    | some node =>
      rw [wrsTerm] at found
      split at found
      · simp at found
      · rw [Option.map_eq_some_iff] at found
        obtain ⟨ids, traversed, -⟩ := found
        -- Every input has a term, found with less fuel.
        have inputs : ∀ input ∈ ctx.succ (some node),
            ∃ value, Dag.eval label ctx.succ fuel input = some value := by
          intro input member
          rw [Dag.mapM_eq_some_iff, List.forall₂_iff_get] at traversed
          obtain ⟨index, inside, rfl⟩ := List.getElem_of_mem member
          obtain ⟨values, evaluated⟩ := next (traversed.2 index inside (traversed.1 ▸ inside))
          exact ⟨_, evaluated⟩
        obtain ⟨values, evaluated⟩ := Dag.exists_mapM_eq_some inputs
        exact ⟨values, by rw [Dag.eval, evaluated, Option.map_some]⟩

/-! Adding nodes. -/

variable (ctx) in
/-- Every recorded node carries its own term, and satisfies a property of nodes. -/
def BuildOk (property : Nat → Prop) (build : WRSEGraphBuild) : Prop :=
  ∀ node term, (node, term) ∈ build → HasTerm ctx (some node) term ∧ property node

/-- The loop over the inputs returns their terms, when the recursion returns terms. -/
theorem wrsAddInputs_spec {property : Nat → Prop}
    {add : WRSEGraphBuild → Option Nat → AddResult (Term Nat)} {inputs : List (Option Nat)}
    (adds : ∀ input ∈ inputs, ∀ build build' id, BuildOk ctx property build →
      add build input = .added build' id →
      HasTerm ctx input id ∧ BuildOk ctx property build' ∧ build ⊆ build')
    {build build' : WRSEGraphBuild} {ids : List (Term Nat)} (ok : BuildOk ctx property build)
    (added : wrsAddInputs add build inputs = .added build' ids) :
    List.Forall₂ (HasTerm ctx) inputs ids ∧ BuildOk ctx property build' ∧ build ⊆ build' := by
  -- The induction is on the inputs, of which each one extends the build.
  induction inputs generalizing build ids with
  | nil =>
    simp only [wrsAddInputs, AddResult.added.injEq] at added
    obtain ⟨rfl, rfl⟩ := added
    exact ⟨.nil, ok, List.Subset.refl _⟩
  | cons input rest next =>
    rw [wrsAddInputs] at added
    cases first : add build input with
    | outOfFuel => simp [first] at added
    | failed => simp [first] at added
    | added middle id =>
      -- The first input is added, and the rest extends that build.
      obtain ⟨has, okMiddle, grown⟩ := adds input (.head _) _ _ _ ok first
      cases others : wrsAddInputs add middle rest with
      | outOfFuel => simp [first, others] at added
      | failed => simp [first, others] at added
      | added last rest' =>
        simp only [first, others, AddResult.added.injEq] at added
        obtain ⟨rfl, rfl⟩ := added
        have later := fun input member => adds input (List.mem_cons_of_mem _ member)
        obtain ⟨related, okLast, grownLast⟩ := next later okMiddle others
        exact ⟨.cons has related, okLast, List.Subset.trans grown grownLast⟩

/-- Adding a node returns its term, and records it with the nodes below it. -/
theorem wrsAddNode_spec {property : Nat → Prop}
    (closed : ∀ node target, property node → some target ∈ ctx.targets node → property target)
    (fuel : Nat) {build build' : WRSEGraphBuild} {node : Nat} {term : Term Nat}
    (start : property node) (ok : BuildOk ctx property build)
    (added : wrsAddNode ctx fuel build (some node) = .added build' term) :
    HasTerm ctx (some node) term ∧ BuildOk ctx property build' ∧ build ⊆ build' ∧
      (node, term) ∈ build' := by
  induction fuel generalizing build build' node term with
  | zero => simp [wrsAddNode] at added
  | succ fuel next =>
    rw [wrsAddNode] at added
    -- A node is looked up first, and is recorded after its inputs.
    cases cached : build.lookup node with
    | some id =>
      simp only [cached, AddResult.added.injEq] at added
      obtain ⟨rfl, rfl⟩ := added
      -- A node in the cache was recorded with its own term.
      have recorded : (node, id) ∈ build := by
        obtain ⟨before, after, rfl, -⟩ := List.lookup_eq_some_iff.mp cached
        simp
      exact ⟨(ok node id recorded).1, ok, List.Subset.refl _, recorded⟩
    | none =>
      simp only [cached] at added
      by_cases wide : 4 < ctx.inputCount node
      · simp [wide] at added
      · simp only [wide, if_false] at added
        cases inputs : wrsAddInputs (wrsAddNode ctx fuel) build (ctx.targets node) with
        | outOfFuel => simp [inputs] at added
        | failed => simp [inputs] at added
        | added middle ids =>
          simp only [inputs, AddResult.added.injEq] at added
          obtain ⟨rfl, rfl⟩ := added
          -- What the recursion returns for an input is a term, by the induction.
          have adds : ∀ input ∈ ctx.targets node, ∀ build build' id, BuildOk ctx property build →
              wrsAddNode ctx fuel build input = .added build' id →
              HasTerm ctx input id ∧ BuildOk ctx property build' ∧ build ⊆ build' := by
            intro input member build build' id ok added
            cases input with
            | none => cases fuel <;> simp [wrsAddNode] at added
            | some target =>
              obtain ⟨has, okLater, grown, -⟩ := next (closed node target start member) ok added
              exact ⟨has, okLater, grown⟩
          obtain ⟨related, okMiddle, grown⟩ := wrsAddInputs_spec adds ok inputs
          have has := HasTerm.node (Nat.not_lt.mp wide) related
          refine ⟨has, ?_, fun _ member => List.mem_append_left _ (grown member), by simp⟩
          -- The node itself is the only new entry.
          intro other id member
          rcases List.mem_append.mp member with old | fresh
          · exact okMiddle other id old
          · cases List.mem_singleton.mp fresh
            exact ⟨has, start⟩

/-- The loop over the inputs succeeds when the recursion does. -/
theorem wrsAddInputs_complete {property : Nat → Prop}
    {add : WRSEGraphBuild → Option Nat → AddResult (Term Nat)} {inputs : List (Option Nat)}
    {ids : List (Term Nat)}
    (adds : List.Forall₂ (fun input id => ∀ build, BuildOk ctx property build →
      ∃ build', BuildOk ctx property build' ∧ add build input = .added build' id) inputs ids)
    {build : WRSEGraphBuild} (ok : BuildOk ctx property build) :
    ∃ build', wrsAddInputs add build inputs = .added build' ids := by
  induction adds generalizing build with
  | nil => exact ⟨build, rfl⟩
  | cons first _ next =>
    -- Each input is added to the graph that the earlier ones left.
    obtain ⟨middle, okMiddle, added⟩ := first build ok
    obtain ⟨last, others⟩ := next okMiddle
    exact ⟨last, by simp [wrsAddInputs, added, others]⟩

/-- A node with a term is added as that term, with the fuel that finds the term. -/
theorem wrsAddNode_complete {property : Nat → Prop}
    (closed : ∀ node target, property node → some target ∈ ctx.targets node → property target)
    (fuel : Nat) {build : WRSEGraphBuild} {node : Nat} {term : Term Nat} (start : property node)
    (ok : BuildOk ctx property build) (found : wrsTerm ctx fuel (some node) = some term) :
    ∃ build', wrsAddNode ctx fuel build (some node) = .added build' term := by
  induction fuel generalizing build node term with
  | zero => simp [wrsTerm] at found
  | succ fuel next =>
    have has : HasTerm ctx (some node) term := ⟨fuel + 1, found⟩
    rw [wrsAddNode]
    cases cached : build.lookup node with
    | some id =>
      -- The cache holds the node's own term.
      obtain ⟨before, after, rfl, -⟩ := List.lookup_eq_some_iff.mp cached
      have same := (ok node id (by simp)).1.unique has
      exact ⟨_, by rw [same]⟩
    | none =>
      -- A node that is not recorded has a term when its inputs have theirs.
      rw [wrsTerm] at found
      by_cases wide : 4 < ctx.inputCount node
      · simp [wide] at found
      · simp only [wide, if_false, Option.map_eq_some_iff] at found ⊢
        obtain ⟨ids, traversed, rfl⟩ := found
        have inputs := Dag.mapM_eq_some_iff.mp traversed
        have adds : List.Forall₂ (fun input id => ∀ build, BuildOk ctx property build →
            ∃ build', BuildOk ctx property build' ∧
              wrsAddNode ctx fuel build input = .added build' id) (ctx.targets node) ids := by
          rw [List.forall₂_iff_zip] at inputs ⊢
          refine ⟨inputs.1, fun {input id} member build ok => ?_⟩
          have computed := inputs.2 member
          -- An input with a term is no null pointer, and is added by the induction.
          obtain ⟨target, rfl⟩ : ∃ target, input = some target :=
            HasTerm.present ⟨fuel, computed⟩
          have below := closed node target start (List.of_mem_zip member).1
          obtain ⟨build', added⟩ := next below ok computed
          exact ⟨build', (wrsAddNode_spec closed fuel below ok added).2.1, added⟩
        obtain ⟨build', added⟩ := wrsAddInputs_complete adds ok
        exact ⟨_, by rw [added]⟩

/-! Sizes of terms, and extraction. -/

/-- The registered equations are commutativity and associativity of five operators. -/
theorem EqxEquation.cases {left right : Term Nat}
    (equation : EqxEquation wrsSaturateRules left right) :
    ∃ kind, wrsIsEqxRewritableKind kind = true ∧ ∃ x y z,
      let op := fun lhs rhs => app (wrsOpOfKind kind) [lhs, rhs]
      left = op x y ∧ right = op y x ∨
        left = op x (op y z) ∧ right = op (op x y) z ∨
        left = op (op x y) z ∧ right = op x (op y z) := by
  obtain ⟨rule, member, assign, rfl, rfl⟩ := equation
  -- Each equation belongs to one of the five operators.
  have operator : ∃ kind, wrsIsEqxRewritableKind kind = true ∧
      rule ∈ wrsOperatorRules kind := by
    simp only [wrsSaturateRules, List.mem_append] at member
    rcases member with (((inAdd | inMul) | inAnd) | inOr) | inXor
    · exact ⟨.add, rfl, inAdd⟩
    · exact ⟨.mul, rfl, inMul⟩
    · exact ⟨.and, rfl, inAnd⟩
    · exact ⟨.or, rfl, inOr⟩
    · exact ⟨.xor, rfl, inXor⟩
  obtain ⟨kind, rewritable, member⟩ := operator
  refine ⟨kind, rewritable, assign "x", assign "y", assign "z", ?_⟩
  simp only [wrsOperatorRules, List.mem_cons, List.not_mem_nil, or_false] at member
  -- The three rules of an operator give the three cases in order.
  rcases member with rfl | rfl | rfl
  · exact .inl ⟨rfl, rfl⟩
  · exact .inr (.inl ⟨rfl, rfl⟩)
  · exact .inr (.inr ⟨rfl, rfl⟩)

/-- Both sides of a registered equation have one size. -/
theorem EqxEquation.size_eq {left right : Term Nat}
    (equation : EqxEquation wrsSaturateRules left right) : left.size = right.size := by
  obtain ⟨kind, -, x, y, z, ⟨rfl, rfl⟩ | ⟨rfl, rfl⟩ | ⟨rfl, rfl⟩⟩ := equation.cases <;>
    simp only [size, List.map_cons, List.map_nil, List.sum_cons, List.sum_nil] <;> omega

/-- An input of a node with a term has a term, which is one of the arguments. -/
theorem HasTerm.input {node : Nat} {term : Term Nat} (has : HasTerm ctx (some node) term)
    {input : Option Nat} (member : input ∈ ctx.targets node) :
    ∃ id, HasTerm ctx input id ∧ id.size < term.size := by
  obtain ⟨-, ids, rfl, inputs⟩ := has.inputs
  -- The terms of the inputs are listed in the order of the inputs.
  have paired : ∃ id ∈ ids, HasTerm ctx input id := by
    clear has
    generalize ctx.targets node = targets at inputs member
    induction inputs with
    | nil => simp at member
    | cons first _ next =>
      rcases List.mem_cons.mp member with rfl | later
      · exact ⟨_, .head _, first⟩
      · obtain ⟨id, found, has⟩ := next later
        exact ⟨id, .tail _ found, has⟩
  obtain ⟨id, found, hasInput⟩ := paired
  exact ⟨id, hasInput, size_lt_of_arg found⟩

/-- A node strictly below another one has a smaller term. -/
theorem HasTerm.size_lt {source sink : Option Nat}
    (path : Relation.TransGen (Dag.Edge ctx.succ) source sink) {large small : Term Nat}
    (hasLarge : HasTerm ctx source large) (hasSmall : HasTerm ctx sink small) :
    small.size < large.size := by
  -- Induction on the path from its start: each step goes to an argument.
  induction path using Relation.TransGen.head_induction_on generalizing large with
  | single edge =>
    obtain ⟨node, rfl⟩ := hasLarge.present
    obtain ⟨id, has, smaller⟩ := hasLarge.input edge
    rw [hasSmall.unique has]
    exact smaller
  | head edge _ next =>
    obtain ⟨node, rfl⟩ := hasLarge.present
    obtain ⟨id, has, smaller⟩ := hasLarge.input edge
    exact Nat.lt_trans (next has) smaller

/-- The picked node is recorded in the class, or the best one so far. -/
theorem wrsPickBest_mem {inClass : Term Nat → Bool} {build : WRSEGraphBuild}
    {best : Option (Nat × Nat)} {node : Nat}
    (picked : wrsPickBest ctx inClass build best = some node) :
    (∃ id, (node, id) ∈ build ∧ inClass id = true) ∨ best.map (·.1) = some node := by
  induction build generalizing best with
  | nil => exact .inr picked
  | cons entry rest next =>
    obtain ⟨other, id⟩ := entry
    rw [wrsPickBest] at picked
    split at picked
    · rename_i cheaper
      rw [Bool.and_eq_true] at cheaper
      rcases next picked with ⟨id', member, related⟩ | last
      · exact .inl ⟨id', .tail _ member, related⟩
      · -- The new best node is the head of the list.
        cases Option.some.inj last
        exact .inl ⟨id, .head _, cheaper.1⟩
    · rcases next picked with ⟨id', member, related⟩ | last
      · exact .inl ⟨id', .tail _ member, related⟩
      · exact .inr last

/-- An extracted node lies below the one given, and its term was merged with that one's. -/
theorem wrsNormalizeWithEgraph_picked {lib : Equinox} {fuel maxIterations root picked : Nat}
    (extracted : wrsNormalizeWithEgraph ctx lib fuel (some root) maxIterations =
      some (some picked)) :
    Dag.Reach ctx.succ (some root) (some picked) ∧
      ∃ added rootId id, HasTerm ctx (some root) rootId ∧ HasTerm ctx (some picked) id ∧
        rootId ∈ added ∧ id ∈ added ∧
        lib.merged added wrsSaturateRules (max maxIterations 1) rootId id = true := by
  rw [wrsNormalizeWithEgraph] at extracted
  cases adding : wrsAddNode ctx fuel [] (some root) with
  | outOfFuel => simp [adding] at extracted
  | failed => simp [adding] at extracted
  | added build rootId =>
    simp only [adding, Option.some.injEq] at extracted
    -- All recorded nodes are reachable from the root.
    let below : Nat → Prop := fun node => Dag.Reach ctx.succ (some root) (some node)
    have closed : ∀ node target, below node → some target ∈ ctx.targets node → below target :=
      fun node target path edge => path.tail edge
    have empty : BuildOk ctx below [] := fun node term member => by simp at member
    obtain ⟨hasRoot, ok, -, recorded⟩ := wrsAddNode_spec closed fuel .refl empty adding
    rcases wrsPickBest_mem extracted with ⟨id, member, related⟩ | impossible
    · obtain ⟨has, path⟩ := ok picked id member
      exact ⟨path, build.map (·.2), rootId, id, hasRoot, has, List.mem_map_of_mem recorded,
        List.mem_map_of_mem member, related⟩
    · simp at impossible

/-- Extraction returns nothing or the node it was given, since its class has no smaller term. -/
theorem wrsNormalizeWithEgraph_eq {lib : Equinox} (sound : lib.Sound) {fuel : Nat}
    {node best : Option Nat} {maxIterations : Nat}
    (extracted : wrsNormalizeWithEgraph ctx lib fuel node maxIterations = some best) :
    best = none ∨ best = node := by
  -- What is picked lies below the node, so its term would be smaller, while the class has one size.
  cases node with
  | none =>
    cases extracted
    exact .inl rfl
  | some root =>
    cases best with
    | none => exact .inl rfl
    | some picked =>
      -- The picked node lies below, and its term is merged with that of the root.
      obtain ⟨path, added, rootId, id, hasRoot, has, rootAdded, idAdded, merged⟩ :=
        wrsNormalizeWithEgraph_picked extracted
      have same : rootId.size = id.size :=
        (sound _ _ _ rootId rootAdded id idAdded merged).size_eq fun _ _ equation =>
          equation.size_eq
      rcases Relation.reflTransGen_iff_eq_or_transGen.mp path with equal | strict
      · exact .inr equal
      · have smaller := HasTerm.size_lt strict hasRoot has
        omega

end Terms

end Wirble
