import Wirble.Wrs.Pattern

/-! The validation of rules, and where a right-hand side uses the matched node itself. -/

namespace Wirble

mutual

/-- The distinct names of a pattern after those met so far, or nothing when they exceed the
capacity. NULL names count as one name. -/
def wrsRuleCollectVars (capacity : Nat) :
    WILPattern → List (Option String) → Option (List (Option String))
  | .var name, vars | .sequence name _, vars =>
    if name ∈ vars then some vars
    else if vars.length ≥ capacity then none
    else some (vars ++ [name])
  | .node _ inputs, vars => collectInputs capacity inputs vars
  | .refinement base, vars => wrsRuleCollectVars capacity base vars
  | _, vars => some vars

/-- The loop over the inputs of a pattern. -/
def collectInputs (capacity : Nat) :
    List WILPattern → List (Option String) → Option (List (Option String))
  | [], vars => some vars
  | input :: inputs, vars =>
    (wrsRuleCollectVars capacity input vars).bind (collectInputs capacity inputs)

end

/-- Whether a rule is accepted. -/
def wilRuleValidate (rule : WILRewriteRule) : Bool :=
  match rule.lhs, rule.rhs with
  | .null, _ => false
  -- Of the patterns that match every node, only a variable is refused at the root.
  | .var _, _ => false
  | _, .null => rule.action.isSome
  | lhs, rhs =>
    match wrsRuleCollectVars 128 lhs [], wrsRuleCollectVars 128 rhs [] with
    | some lhsVars, some rhsVars => rhsVars.all (· ∈ lhsVars)
    | _, _ => false

namespace WILPattern

/-- The name that a left-hand side gives to the matched node itself. -/
def rootName : WILPattern → Option String
  | var name | sequence name _ => name
  | refinement base => base.rootName
  | _ => none

mutual

/-- The names whose nodes a right-hand side is or leads to. -/
def reads : WILPattern → List String
  | var (some name) | sequence (some name) _ => [name]
  | node kind inputs =>
    match kind.arity with
    | some count => readsFirst inputs count
    | none => []
  | refinement base => base.reads
  | _ => []

/-- The names in the first inputs, the only ones that an operator is built with. -/
def readsFirst : List WILPattern → Nat → List String
  | input :: inputs, count + 1 => input.reads ++ readsFirst inputs count
  | _, _ => []

end

/-- The names whose nodes lie below the operator that a right-hand side builds. -/
def underOperator : WILPattern → List String
  | node kind inputs => (node kind inputs).reads
  | refinement base => base.underOperator
  | _ => []

end WILPattern

/-- The right-hand side does not build an operator over the matched node itself. -/
def RootFree (rule : WILRewriteRule) : Prop :=
  ∀ name, rule.lhs.rootName = some name → name ∉ rule.rhs.underOperator

instance (rule : WILRewriteRule) : Decidable (RootFree rule) :=
  decidable_of_iff (rule.lhs.rootName.all (· ∉ rule.rhs.underOperator) = true) <| by
    cases root : rule.lhs.rootName <;> simp [RootFree, root]

end Wirble
