import Wirble.Wrs.EquinoxTerms
import Wirble.Wrs.Preserve
import Wirble.Wil.Integers

/-! Normalization of graphs of 32-bit integers and truth values. -/

namespace Wirble

open WILContext IntValue

/-- A value of an operation on two integers needs both operands. -/
theorem sameWidth_operands {op : (width : Nat) → BitVec width → BitVec width → IntValue}
    {x y : Option IntValue} (defined : (sameWidth op x y).isSome = true) :
    x.isSome = true ∧ y.isSome = true := by
  cases x <;> cases y <;> simp_all [sameWidth]

/-- A value of an operation on one integer needs the operand. -/
theorem unary_operand {op : (width : Nat) → BitVec width → BitVec width} {x : Option IntValue}
    (defined : (unary op x).isSome = true) : x.isSome = true := by
  cases x with
  | none => simp [unary] at defined
  | some value => rfl

/-- A value of a selection needs the condition and both operands. -/
theorem select_operands {condition x y : Option IntValue}
    (defined : (select condition x y).isSome = true) :
    condition.isSome = true ∧ x.isSome = true ∧ y.isSome = true := by
  unfold select at defined
  -- Without a condition the selection has no value.
  split at defined
  · exact ⟨rfl, sameWidth_operands defined⟩
  · simp at defined

/-- An operator with a value has values for all its operands. -/
theorem wilOperator_operands {kind : WILNodeKind} {inputs : List (Option IntValue)}
    (defined : (wilOperator kind inputs).isSome = true) :
    ∀ input ∈ inputs, input.isSome = true := by
  -- Every branch of the operator reads all its operands.
  unfold wilOperator at defined
  split at defined
  case h_20 => simpa using select_operands defined
  case h_21 => simp at defined
  case h_11 | h_12 | h_13 => simpa using unary_operand defined
  all_goals simpa using sameWidth_operands defined

/-- The logical operators, which take truth values as well as words. -/
def WILNodeKind.takesTruth : WILNodeKind → Bool
  | .and | .or | .xor | .not | .select => true
  | _ => false

/-- The value is a word of the given width. -/
def IntValue.hasWidth (width : Nat) (value : Option IntValue) : Bool :=
  value.elim false (·.1 == width)

/-- Operands are words of 32 bits, or truth values where the operator takes these. -/
def i32Operands (kind : WILNodeKind) (inputs : List (Option IntValue)) : Bool :=
  -- The condition of a selection has one bit at either width of the other operands.
  let operands := if kind = .select then inputs.drop 1 else inputs
  operands.all (hasWidth 32) || kind.takesTruth && operands.all (hasWidth 1)

/-- The meaning of operators of words of 32 bits and of truth values. -/
def i32Operator (kind : WILNodeKind) (inputs : List (Option IntValue)) : Option IntValue :=
  if i32Operands kind inputs then wilOperator kind inputs else none

/-- Graphs of I32 and I1 operators over the given parameters. -/
def wilI32 (params : Nat → Option IntValue) : WILInterp (Option IntValue) where
  null := none
  constInt type value := if type = .i32 then some ⟨32, BitVec.ofInt 32 value⟩ else none
  constFloat _ _ := none
  constBool value := some (truth value)
  param := params
  operator := i32Operator
  other _ _ := none

/-- A value is present. -/
def IntValue.Defined (value : Option IntValue) : Prop := value.isSome = true

/-- In these graphs a defined node has defined inputs. -/
theorem wilI32_strict (params : Nat → Option IntValue) : Strict (wilI32 params) Defined where
  operator kind inputs _ defined := by
    simp only [Defined, wilI32, i32Operator] at defined
    -- Only integer operators of matching width are defined here, and they need their operands.
    split at defined
    · exact wilOperator_operands defined
    · simp at defined
  other _ _ := by simp [wilI32, Defined]
  constant type value defined := by
    -- Constants of any other type are not defined in these graphs.
    by_cases word : type = .i32
    · rw [word]
    · simp [wilI32, Defined, word] at defined

/-- Whenever normalization with valid simple rules returns, the node it returns has the value of
the node it was given, for every strategy and number of passes. -/
theorem wilRewriteSystemNormalize_value (params : Nat → Option IntValue)
    {equivalent : WILContext → Option Nat → Option Nat → Bool} {lib : Equinox}
    (related : SoundEquivalence (wilI32 params) equivalent) (merges : lib.Sound)
    {sys sys' : WILRewriteSystem} (consistent : DefUse sys.ctx) (acyclic : sys.ctx.Acyclic)
    (leaves : sys.ctx.LeafKinds)
    (rules : ∀ rule ∈ sys.rules, SimpleRule rule ∧ ValidRule (wilI32 params) Defined rule)
    {node : Nat} {value : IntValue}
    (denotes : sys.ctx.Denotes (wilI32 params) (some node) (some value))
    {fuel maxIterations : Nat} {result : Option Nat} {exit : LoopExit}
    (normalized : wilRewriteSystemNormalize equivalent
      (fun ctx => wrsNormalizeWithEgraph ctx lib fuel) fuel sys (some node) maxIterations =
        some (sys', result, exit)) :
    sys'.ctx.Denotes (wilI32 params) result (some value) := by
  have grounded := acyclic.grounded
  obtain ⟨before, (valuation : sys.ctx.IsValuation (wilI32 params) before)⟩ :=
    grounded.exists_valuation (sys.ctx.label (wilI32 params))
  have start : before (some node) = some value := by
    obtain ⟨steps, evaluated⟩ := denotes
    exact Dag.eval_eq_valuation valuation evaluated
  have inside : node < sys.ctx.graph.length := by
    by_contra outside
    -- Pointers outside the graph have no value.
    have undefined := valuation (some node)
    simp [label, List.getElem?_eq_none (Nat.not_lt.mp outside), wilI32, start] at undefined
  rw [wilRewriteSystemNormalize, Option.bind_eq_some_iff] at normalized
  obtain ⟨best, extracted, looped⟩ := normalized
  -- The e-graph hands back the node itself, if any.
  have same : best.or (some node) = some node := by
    rcases wrsNormalizeWithEgraph_eq merges extracted with rfl | rfl <;> rfl
  rw [same] at looped
  -- The start is ready: the node has a good value.
  have ready : Ready (wilI32 params) Defined sys (some node) := by
    refine ⟨consistent, grounded, .inl leaves, rules, ?_, ?_⟩
    · rintro ref ⟨⟩
      exact inside
    · rintro ref ⟨⟩ other valuationOther
      rw [grounded.valuation_unique valuationOther valuation, start]
      rfl
  obtain ⟨groundedLast, kept⟩ :=
    normalizeLoop_value (wilI32_strict params) related fuel maxIterations ready looped
  -- The graph that is left has a valuation too.
  obtain ⟨after, (valuationLast : sys'.ctx.IsValuation (wilI32 params) after)⟩ :=
    groundedLast.exists_valuation (sys'.ctx.label (wilI32 params))
  have final : after result = some value := by
    rw [kept before after valuation valuationLast, start]
  rw [← final]
  exact groundedLast.denotes valuationLast result

/-- The rule that cancels a double negation. -/
def cancelNegation : WILRewriteRule :=
  wilRuleCreateSimple "neg-neg" (.node .neg [.node .neg [wilPatVar "x"]]) (wilPatVar "x")

/-- Cancelling a double negation is a valid rule. -/
theorem cancelNegation_valid (params : Nat → Option IntValue) :
    ValidRule (wilI32 params) Defined cancelNegation := by
  intro assign defined left
  obtain ⟨⟨width, x⟩, read⟩ := Option.isSome_iff_exists.mp (defined "x")
  simp only [cancelNegation, wilRuleCreateSimple, wilPatVar, WILPattern.eval, WILPattern.evalList,
    wilI32, read] at left ⊢
  by_cases word : width = 32
  · subst word
    simp [i32Operator, i32Operands, hasWidth, wilOperator]
  · -- Negation of any other width is undefined, and so is the left side.
    simp [i32Operator, i32Operands, hasWidth, WILNodeKind.takesTruth, word, Defined] at left

/-- Doubling a doubly negated parameter, with the cancellation applied below the root. -/
theorem wilRewriteSystemNormalize_value_neg_neg :
    let params : Nat → Option IntValue := fun _ => some ⟨32, 5#32⟩
    let calls : List WILCall := [.makeParam 0 .i32 none, .makeUnary .neg (some 0),
      .makeUnary .neg (some 1), .makeBinary .add (some 2) (some 2)]
    let sys := wilRewriteSystemAddRule
      (wilRewriteSystemCreate (runCalls (empty 7) calls)) cancelNegation
    let lib : Equinox := ⟨fun _ _ _ left right => decide (left = right)⟩
    ∃ sys' result exit, wilRewriteSystemNormalize (fun _ left right => left == right)
        (fun ctx => wrsNormalizeWithEgraph ctx lib 9) 9 sys (some 3) 4 =
          some (sys', result, exit) ∧
      sys'.ctx.Denotes (wilI32 params) result (some ⟨32, 10#32⟩) := by
  intro params calls sys lib
  -- The graph is acyclic, and its rule is valid and simple.
  have consistent : DefUse sys.ctx := (defUse_empty 7).calls calls (by decide)
  have acyclic : sys.ctx.Acyclic := Ordered.acyclic (by decide)
  have leaves : sys.ctx.LeafKinds := leafKinds_of_records (by decide)
  have rules : ∀ rule ∈ sys.rules, SimpleRule rule ∧ ValidRule (wilI32 params) Defined rule := by
    intro rule member
    cases List.mem_singleton.mp member
    exact ⟨⟨rfl, ⟨_, _, rfl⟩, by decide, by decide, by decide⟩, cancelNegation_valid params⟩
  have denotes : sys.ctx.Denotes (wilI32 params) (some 3) (some ⟨32, 10#32⟩) := ⟨9, by decide⟩
  -- Equality of records is a sound equivalence, and equality of ids a sound e-graph.
  have related : SoundEquivalence (wilI32 params) fun _ left right => left == right :=
    fun _ _ _ equal value _ => congrArg value (eq_of_beq equal)
  have merges : lib.Sound := fun _ _ _ left _ right _ merged => by
    rw [show left = right from of_decide_eq_true merged]
    exact .refl right
  -- The normalizer returns within nine steps, which evaluation shows.
  obtain ⟨⟨sys', result, exit⟩, normalized⟩ := Option.isSome_iff_exists.mp
    (show (wilRewriteSystemNormalize (fun _ left right => left == right)
      (fun ctx => wrsNormalizeWithEgraph ctx lib 9) 9 sys (some 3) 4).isSome = true by decide)
  exact ⟨sys', result, exit, normalized, wilRewriteSystemNormalize_value params related merges
    consistent acyclic leaves rules denotes normalized⟩

end Wirble
