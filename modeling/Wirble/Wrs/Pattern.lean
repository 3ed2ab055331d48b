import Wirble.Wil.Builder
import Wirble.Wil.Semantics
import Wirble.Wrs.SExpr

/-! Patterns, rules and rewrite systems. -/

namespace Wirble

/-- Patterns over WIL nodes. -/
inductive WILPattern where
  /-- The null pattern pointer. -/
  | null
  | var (name : Option String)
  | constInt (value : Int)
  | constFloat (value : DoubleBits)
  | constBool (value : Bool)
  | node (kind : WILNodeKind) (inputs : List WILPattern)
  | wildcard
  /-- A custom test together with its user data, or the null function pointer. -/
  | predicate (test : Option (WILContext → Option Nat → Bool))
  /-- Matches like a variable: the element pattern is never consulted. -/
  | sequence (name : Option String) (element : WILPattern)
  | refinement (base : WILPattern)

/-- Bindings in the order in which matching made them. -/
abbrev WILSubstitution := List (String × Option Nat)

/-- A successful match. -/
structure WILMatch where
  node : Option Nat
  substitution : WILSubstitution
  deriving DecidableEq, Repr

/-- A custom action closes over its user data and may edit the context. -/
abbrev WILRewriteAction := WILContext → WILMatch → WILContext × Option Nat

/-- A rewrite rule. -/
structure WILRewriteRule where
  name : String
  lhs : WILPattern
  rhs : WILPattern
  action : Option WILRewriteAction
  enabled : Bool
  /-- The condition of a loaded rule, or the null pointer. -/
  guard : Option WRSSExpr := none
  statsIndex : Nat

/-- Orders in which a pass visits the graph. -/
inductive WILRewriteStrategy where
  | innermost | outermost | leftmost | parallel | custom
  deriving DecidableEq, Repr

/-- Counters of a rewrite system, which wrap around at 32 bits. -/
structure WILRewriteStats where
  totalRewrites : BitVec 32
  /-- Applications of each rule, an array of 256 entries. -/
  rulesApplied : List (BitVec 32)
  iterations : BitVec 32
  normalFormsReached : BitVec 32
  deriving DecidableEq, Repr

/-- A rewrite system, with the context that its rules edit. -/
structure WILRewriteSystem where
  ctx : WILContext
  rules : List WILRewriteRule
  strategy : WILRewriteStrategy
  stats : WILRewriteStats

/-- The counters of a system from `wilRewriteSystemCreate`. -/
def WILRewriteStats.zero : WILRewriteStats :=
  { totalRewrites := 0, rulesApplied := List.replicate 256 0, iterations := 0,
    normalFormsReached := 0 }

/-- A variable from `wilPatVar`. -/
def wilPatVar (name : String) : WILPattern := .var (some name)

/-- A rule without an action from `wilRuleCreateSimple`. -/
def wilRuleCreateSimple (name : String) (lhs rhs : WILPattern) : WILRewriteRule :=
  { name, lhs, rhs, action := none, enabled := true, statsIndex := 0 }

/-- A system from `wilRewriteSystemCreate`. -/
def wilRewriteSystemCreate (ctx : WILContext) : WILRewriteSystem :=
  { ctx, rules := [], strategy := .innermost, stats := .zero }

/-- Append a rule whose object is in no table yet. Its counter is its position or the last one. -/
def wilRewriteSystemAddRule (sys : WILRewriteSystem) (rule : WILRewriteRule) : WILRewriteSystem :=
  let statsIndex := if sys.rules.length < 256 then sys.rules.length else 255
  { sys with rules := sys.rules ++ [{ rule with statsIndex }] }

/-- Load the rules of a file in order, and take over its strategy. -/
def wrsFileApplyToSystem (rules : List WILRewriteRule) (strategy : WILRewriteStrategy)
    (sys : WILRewriteSystem) : WILRewriteSystem :=
  rules.foldl wilRewriteSystemAddRule { sys with strategy }

namespace WILPattern

mutual

/-- Built from named variables, integer and boolean constants, and operators of their arity. -/
def simple : WILPattern → Bool
  | var name => name.isSome
  | constInt _ | constBool _ => true
  | node kind inputs => kind.arity = some inputs.length && simpleList inputs
  | _ => false

/-- Every pattern of the list is simple. -/
def simpleList : List WILPattern → Bool
  | [] => true
  | pattern :: rest => pattern.simple && simpleList rest

end

mutual

/-- The variables of a pattern, in the order of matching and with repetitions. -/
def vars : WILPattern → List String
  | var (some name) | sequence (some name) _ => [name]
  | node _ inputs => varsList inputs
  | refinement base => base.vars
  | _ => []

/-- The variables of a list of patterns. -/
def varsList : List WILPattern → List String
  | [] => []
  | pattern :: rest => pattern.vars ++ varsList rest

end

section Eval

variable {V : Type} (interp : WILInterp V) (assign : String → V)

mutual

/-- The value of a pattern under an assignment of its variables. -/
def eval : WILPattern → V
  | var (some name) | sequence (some name) _ => assign name
  -- Right-hand sides build their constants at these types.
  | constInt value => interp.constInt .i32 value
  | constFloat value => interp.constFloat .f64 value
  | constBool value => interp.constBool value
  | node kind inputs => interp.operator kind (evalList inputs)
  | refinement base => base.eval
  | _ => interp.null

/-- The values of a list of patterns. -/
def evalList : List WILPattern → List V
  | [] => []
  | pattern :: rest => pattern.eval :: evalList rest

end

end Eval

end WILPattern

end Wirble
