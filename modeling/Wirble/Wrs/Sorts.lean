import Wirble.Wrs.Types

/-! The types that the built-in rules keep. -/

namespace Wirble

open WILContext

/-- The pattern is an integer constant. -/
def WILPattern.isWord : WILPattern → Bool
  | .constInt _ => true
  | _ => false

/-- What the right-hand side builds has the type of what the left-hand side matches. -/
def WILRewriteRule.keepsType (rule : WILRewriteRule) : Bool :=
  match rule.rhs.typeSource with
  | .ofName name => rule.lhs.carries name
  | .truth => rule.lhs.truth
  | .word => false

/-- Only integer constants on the right lose the type of the left side. -/
theorem builtinRules_keepType :
    ∀ rule ∈ builtinRules, rule.rhs.isWord = true ∨ rule.keepsType = true := by decide

/-- A stock rule keeps the type if its right-hand side is no integer constant. -/
theorem IsBuiltin.keepsType {rule : WILRewriteRule} (builtin : IsBuiltin rule)
    (other : rule.rhs.isWord = false) : rule.keepsType = true := by
  obtain ⟨original, member, statsIndex, enabled, rfl⟩ := builtin
  rcases builtinRules_keepType original member with word | keeps
  · exact absurd word (ne_true_of_eq_false other)
  · exact keeps

/-- Operators have integer types. -/
theorem WILNodeKind.Typed.integer {kind : WILNodeKind} {inputs : List (Option WILType)}
    {type : WILType} (operator : kind.arity.isSome) (typed : kind.Typed inputs type) :
    type.isInteger = true := by
  cases kind <;> simp only [Typed] at typed <;>
    first
    | exact typed.2
    | (obtain ⟨amount, -, integer, -⟩ := typed; exact integer)
    | (obtain ⟨rfl, -⟩ := typed; rfl)
    | simp [arity] at operator

section Rule

variable {equivalent : WILContext → Option Nat → Option Nat → Bool} {ctx : WILContext}
  {rule : WILRewriteRule} {node : Nat} {found : WILMatch}

/-- A matching built-in rule builds a node, of the matched node's type unless it is a constant. -/
theorem IsBuiltin.builds (builtin : IsBuiltin rule) (typed : ctx.WellTyped)
    (matched : Matches equivalent ctx rule (some node) found) :
    ∃ type, ctx.typeOf (some node) = some type ∧
      (wrsApplyPattern found.substitution rule.rhs ctx).1.typeOf
        (wrsApplyPattern found.substitution rule.rhs ctx).2 =
          some (if rule.rhs.isWord then .i32 else type) := by
  obtain ⟨-, -, matched⟩ := matched
  obtain ⟨subst, run, rfl⟩ := Option.map_eq_some_iff.mp matched
  have simple := builtin.simple
  obtain ⟨kind, inputs, root⟩ := simple.root
  have lhs := simple.lhs
  rw [root] at lhs
  have arity : kind.arity = some inputs.length := by
    simp only [WILPattern.simple, Bool.and_eq_true, decide_eq_true_eq] at lhs
    exact lhs.1
  -- The root of the rule is an operator, so the matched node has a type that fits.
  obtain ⟨ref, type, pointer, sameType, fits, -, -⟩ :=
    wrsMatchPattern_operator arity typed (root ▸ run)
  have integer := fits.integer (by simp [arity])
  have inside : node < ctx.graph.length := by
    by_contra outside
    have missing : ctx.typeOf (some node) = none := by
      simp [typeOf, deref, List.getElem?_eq_none (Nat.not_lt.mp outside)]
    rw [missing] at sameType
    cases sameType
  refine ⟨type, sameType, ?_⟩
  -- The source of the built type gives the expected type.
  have gives : rule.rhs.typeSource.Gives ctx subst (if rule.rhs.isWord then .i32 else type) := by
    cases word : rule.rhs.isWord with
    | true =>
      cases rhs : rule.rhs <;> simp [rhs, WILPattern.isWord] at word
      rfl
    | false =>
      have keeps := builtin.keepsType word
      rw [WILRewriteRule.keepsType] at keeps
      cases source : rule.rhs.typeSource with
      | ofName name =>
        rw [source] at keeps
        -- The name carries the type of the left side, so it is bound.
        have read : name ∈ rule.lhs.vars := by
          refine simple.vars name ?_
          exact WILPattern.typeSource_mem simple.rhs source
        obtain ⟨bound, known⟩ := wrsMatchPattern_bound run name read
        have same := wrsMatchPattern_carries typed simple.lhs keeps run rfl known
        have lookup : wilSubstitutionLookup subst (some name) = bound := by
          simp [wilSubstitutionLookup, known]
        show ctx.typeOf (wilSubstitutionLookup subst (some name)) = some type
        rw [lookup, same, sameType]
      | truth =>
        rw [source] at keeps
        -- Only comparisons and their kin are rewritten to truth values.
        obtain ⟨-, covered⟩ := wrsMatchPattern_spec simple.lhs run
        have truth := Covers.truth typed simple.lhs keeps covered
        rw [sameType] at truth
        exact Option.some.inj truth
      | word =>
        rw [source] at keeps
        cases keeps
  -- The type that is given is not void.
  have given : (if rule.rhs.isWord then WILType.i32 else type) ≠ .void := by
    split
    · exact nofun
    · rintro rfl
      cases integer
  exact wrsApplyPattern_type given (Bindable.lookup run)
    (fun _ => Bindable.inside typed.consistent.closed inside) simple.rhs
    (.refl typed.consistent) gives

end Rule

/-! One rewrite at a node. -/

section System

variable (equivalent : WILContext → Option Nat → Option Nat → Bool)

/-- The first enabled rule whose left-hand side matches the node. -/
def firstMatch (ctx : WILContext) (rules : List WILRewriteRule) (node : Option Nat) :
    Option WILRewriteRule :=
  rules.find? fun rule => rule.enabled && (wilPatternMatch equivalent ctx rule.lhs node).isSome

variable {equivalent} {sys : WILRewriteSystem} {node : Nat}

/-- Where every match builds a node, the first rule that matches is the one that is applied. -/
theorem applyFirst_firstMatch {rules : List WILRewriteRule}
    (plain : ∀ rule ∈ rules, rule.action = none)
    (builds : ∀ rule ∈ rules, ∀ found, Matches equivalent sys.ctx rule (some node) found →
      (wrsApplyPattern found.substitution rule.rhs sys.ctx).2 ≠ none) :
    applyFirst equivalent rules sys (some node) =
      match firstMatch equivalent sys.ctx rules (some node) with
      | some rule => wrsApplyRule equivalent sys rule (some node)
      | none => (sys, none) := by
  -- Induction on the rules still to be tried.
  induction rules with
  | nil => rfl
  | cons rule rest next =>
    have tail := next (fun other member => plain other (.tail _ member))
      (fun other member => builds other (.tail _ member))
    rw [applyFirst_cons, firstMatch, List.find?_cons]
    cases hit : rule.enabled && (wilPatternMatch equivalent sys.ctx rule.lhs (some node)).isSome with
    -- The first rule matches, and builds something, so its trial succeeds.
    | true =>
      simp only [Bool.and_eq_true] at hit
      obtain ⟨found, matched⟩ := Option.isSome_iff_exists.mp hit.2
      have trial : Matches equivalent sys.ctx rule (some node) found := ⟨hit.1, rfl, matched⟩
      have result := (wrsApplyRule_matched (plain rule (.head _)) trial).1
      rw [if_neg (result ▸ builds rule (.head _) found trial)]
    | false =>
      -- A rule that does not match is passed over.
      have unmatched : ∀ found, ¬ Matches equivalent sys.ctx rule (some node) found := by
        rintro found ⟨enabled, -, matched⟩
        simp [enabled, matched] at hit
      rw [wrsApplyRule_unmatched unmatched, if_pos rfl]
      exact tail

/-- A rewrite replaced a node by one of its type, and every user has inputs of the types it had. -/
structure KeepsTypes (before after : WILContext) (node replacement : Nat) : Prop where
  replaced : after.typeOf (some replacement) = before.typeOf (some node)
  slots : ∀ user < before.graph.length,
    (after.targets user).map after.typeOf = (before.targets user).map before.typeOf

/-- Users keep the types of their inputs when the replacement has the type of the node. -/
theorem RuleStep.keepsTypes {rule : WILRewriteRule} {before middle after : WILContext}
    {replacement : Nat} {subst : WILSubstitution} (consistent : DefUse before)
    (step : RuleStep equivalent before rule node replacement subst middle after)
    (same : after.typeOf (some replacement) = before.typeOf (some node)) :
    KeepsTypes before after node replacement := by
  refine ⟨same, fun user inside => ?_⟩
  have nodes : SameNodes middle after := by
    rw [step.after]
    exact sameNodes_replaceAllUses middle _ _
  have types : after.typeOf = middle.typeOf := funext nodes.typeOf
  have grown : middle.typeOf (some node) = before.typeOf (some node) :=
    step.built.typeOf fun _ equal => Option.some.inj equal ▸ step.inside
  rw [types] at same ⊢
  -- Redirected slots change to a node of the same type, and old nodes keep their types.
  rw [step.after, step.built.consistent.map_targets_replaceAllUses (same.trans grown.symm),
    step.built.targets user inside]
  refine List.map_congr_left fun target member => step.built.typeOf ?_
  rintro ref rfl
  exact consistent.closed user ref member

/-- A rewrite by built-in rules keeps the types exactly when the first rule that matches has no
integer constant on its right, or the node is an `i32`. -/
theorem builtin_rewrite_keeps_types_iff
    (equivalent : WILContext → Option Nat → Option Nat → Bool) {sys sys' : WILRewriteSystem}
    (builtin : ∀ rule ∈ sys.rules, IsBuiltin rule) (typed : sys.ctx.WellTyped)
    {node replacement : Nat}
    (applied : wilRewriteSystemApplyAt equivalent sys (some node) = (sys', some replacement)) :
    KeepsTypes sys.ctx sys'.ctx node replacement ↔
      ∀ rule, firstMatch equivalent sys.ctx sys.rules (some node) = some rule →
        rule.rhs.isWord = true → sys.ctx.typeOf (some node) = some .i32 := by
  have builds : ∀ rule ∈ sys.rules, ∀ found, Matches equivalent sys.ctx rule (some node) found →
      (wrsApplyPattern found.substitution rule.rhs sys.ctx).2 ≠ none := by
    intro rule member found matched absent
    obtain ⟨type, -, built⟩ := (builtin rule member).builds typed matched
    rw [absent] at built
    cases built
  rw [wilRewriteSystemApplyAt,
    applyFirst_firstMatch (fun rule member => (builtin rule member).simple.action) builds] at applied
  cases first : firstMatch equivalent sys.ctx sys.rules (some node) with
  | none =>
    rw [first] at applied
    cases applied
  -- The rule that applied is the first one that matches.
  | some rule =>
    rw [first] at applied
    replace applied : wrsApplyRule equivalent sys rule (some node) = (sys', some replacement) :=
      applied
    have member : rule ∈ sys.rules := List.mem_of_find?_eq_some first
    have simple := (builtin rule member).simple
    obtain ⟨enabled, -, -, subst, middle, step⟩ :=
      wrsApplyRule_some simple typed.consistent applied
    have matched : Matches equivalent sys.ctx rule (some node) ⟨some node, subst⟩ :=
      ⟨enabled, rfl, by simp [wilPatternMatch, step.matched]⟩
    obtain ⟨type, sameType, built⟩ := (builtin rule member).builds typed matched
    -- The node that was built keeps its type while the uses are redirected.
    obtain ⟨result, -, redirected⟩ := wrsApplyRule_matched simple.action matched
    rw [applied] at result redirected
    have nodes := sameNodes_replaceAllUses (wrsApplyPattern subst rule.rhs sys.ctx).1 (some node)
      (some replacement)
    have replacementType : sys'.ctx.typeOf (some replacement) =
        some (if rule.rhs.isWord then .i32 else type) := by
      have context : sys'.ctx = _ := redirected replacement result.symm
      rw [context, nodes.typeOf, ← built, ← result]
    -- Both sides compare the replacement's type with that of the node.
    constructor
    · rintro kept other equal word
      cases equal
      rw [← kept.replaced, replacementType, if_pos word]
    · intro holds
      refine step.keepsTypes typed.consistent ?_
      rw [replacementType]
      split
      · rename_i word
        exact (holds rule rfl word).symm
      · exact sameType.symm

/-- The difference of a parameter and itself. -/
def difference (type : WILType) : WILContext :=
  runCalls (empty 7) [.makeParam 0 type none, .makeBinary .sub (some 0) (some 0)]

/-- The difference of two integers is well typed. -/
theorem difference_typed {type : WILType} (integer : type.isInteger = true) :
    (difference type).WellTyped where
  consistent := (defUse_empty 7).calls _ (by cases type <;> decide)
  operators := by
    -- The parameter is no operator, and the difference has its own type on both sides.
    intro node record stored present
    have inside : node < 2 := (List.getElem?_eq_some_iff.mp stored).1
    match node, inside with
    | 0, _ => exact absurd rfl present
    | 1, _ =>
      cases stored
      cases type <;> exact ⟨rfl, integer⟩
  truths := by
    -- Neither node is a truth value.
    intro node record stored kind
    have inside : node < 2 := (List.getElem?_eq_some_iff.mp stored).1
    match node, inside with
    | 0, _ | 1, _ =>
      cases stored
      cases kind

/-- The rules of the three files over a graph. -/
def builtinSystem (ctx : WILContext) : WILRewriteSystem :=
  wilRewriteSystemAddAllBuiltinRules (wilRewriteSystemCreate ctx)

/-- The stock system holds stock rules only. -/
theorem builtinSystem_builtin (ctx : WILContext) : ∀ rule ∈ (builtinSystem ctx).rules,
    IsBuiltin rule := by
  intro rule member
  rcases mem_wilRewriteSystemAddAllBuiltinRules member with old | builtin
  · cases old
  · exact builtin

/-- The built-in rules replace a 64-bit difference by a 32-bit zero. -/
theorem builtin_rewrite_changes_type :
    ¬ ∀ (equivalent : WILContext → Option Nat → Option Nat → Bool) (sys sys' : WILRewriteSystem),
      (∀ rule ∈ sys.rules, IsBuiltin rule) → sys.ctx.WellTyped → ∀ node replacement,
      wilRewriteSystemApplyAt equivalent sys (some node) = (sys', some replacement) →
      sys'.ctx.typeOf (some replacement) = sys.ctx.typeOf (some node) := by
  intro claimed
  -- A difference of equal operands becomes a constant of 32 bits.
  have same := claimed (fun _ left right => left == right) (builtinSystem (difference .i64)) _
    (builtinSystem_builtin _) (difference_typed rfl) 1 2 rfl
  revert same
  decide

/-- At 32 bits the zero has the type of the difference. -/
theorem builtin_rewrite_keeps_types_narrow :
    KeepsTypes (difference .i32) (wilRewriteSystemApplyAt (fun _ left right => left == right)
      (builtinSystem (difference .i32)) (some 1)).1.ctx 1 2 :=
  (builtin_rewrite_keeps_types_iff (fun _ left right => left == right)
    (builtinSystem_builtin (difference .i32)) (difference_typed rfl) rfl).mpr fun _ _ _ => rfl

end System

end Wirble
