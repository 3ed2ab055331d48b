import Wirble.Wrs.Canonical
import Wirble.Wrs.Termination

/-! When the built-in rules lead every term to one canonical form. -/

namespace Wirble

open Term WILTerm

/-- The terms at which two rules compete and lead to different normal forms. -/
inductive Critical : WILTerm → Prop
  /-- Either negation of a sum may become a difference. -/
  | addNegs (y z : WILTerm) : Normal Redex (unary .neg y) → Normal Redex (unary .neg z) →
    Critical (binary .add (unary .neg y) (unary .neg z))
  /-- A difference that is turned back into a sum has its operands exchanged. -/
  | addNegNeg (x z : WILTerm) : Normal Redex x → Normal Redex (unary .neg z) → isInt 0 x = false →
    negArg x = none → x ≠ z → Critical (binary .add (unary .neg (unary .neg z)) x)
  /-- Rules match constants of any type, and build constants of 32 bits. -/
  | addZeros (first second : WILType) : ¬ (first = .i32 ∧ second = .i32) →
    Critical (binary .add (int first 0) (int second 0))
  | subZeros (first second : WILType) : first ≠ .i32 →
    Critical (binary .sub (int first 0) (int second 0))
  | mulOnes (first second : WILType) : first ≠ second →
    Critical (binary .mul (int first 1) (int second 1))
  | mulMinusOnes (first second : WILType) : first ≠ second →
    Critical (binary .mul (int first (-1)) (int second (-1)))
  | mulOneMinusOne (first second : WILType) :
    Critical (binary .mul (int first 1) (int second (-1)))
  | mulMinusOneOne (first second : WILType) :
    Critical (binary .mul (int first (-1)) (int second 1))
  | mulOneZero (first second : WILType) : second ≠ .i32 →
    Critical (binary .mul (int first 1) (int second 0))
  | mulZeroOne (first second : WILType) : first ≠ .i32 →
    Critical (binary .mul (int first 0) (int second 1))
  | divOnes (type : WILType) : type ≠ .i32 → Critical (binary .div (int type 1) (int type 1))
  | negNegZero (type : WILType) : type ≠ .i32 → Critical (unary .neg (unary .neg (int type 0)))
  /-- A complemented comparison is negated, or the branches of the choice are exchanged. -/
  | selectNotCompare (kind other : WILNodeKind) (a b x y : WILTerm) :
    negatedKind kind = some other → Normal Redex (binary kind a b) → Normal Redex x →
    Normal Redex y → x ≠ y → Critical (select (unary .not (binary kind a b)) x y)

/-- Rewriting the term never brings about a part at which two rules compete. -/
def Stable (term : WILTerm) : Prop :=
  ∀ middle part, Steps Redex term middle → Subterm part middle → ¬ Critical part

/-- A stable term stays stable as it is rewritten. -/
theorem Stable.steps {term next : WILTerm} (stable : Stable term) (steps : Steps Redex term next) :
    Stable next :=
  fun middle part more => stable middle part (steps.trans more)

/-- The parts of a stable term are stable. -/
theorem Stable.part {term part : WILTerm} (stable : Stable term) (inside : Subterm part term) :
    Stable part := by
  intro middle inner steps within
  -- The rewritten part is a part of the rewritten term.
  obtain ⟨whole, outer, nested⟩ := inside.steps steps
  exact stable whole inner outer (within.trans nested)

/-- No term that a stable one is rewritten to is critical. -/
theorem Stable.not_critical {term next : WILTerm} (stable : Stable term)
    (steps : Steps Redex term next) : ¬ Critical next :=
  stable next next steps (.refl next)

/-- Operands may be rewritten in any way before two rules compete for the operator. -/
theorem Stable.binary {kind : WILNodeKind} {x y x' y' : WILTerm}
    (stable : Stable (binary kind x y)) (left : Steps Redex x x') (right : Steps Redex y y') :
    ¬ Critical (binary kind x' y') :=
  stable.not_critical (Steps.args _ (.cons left (.cons right .nil)))

section Competition

variable {x y : WILTerm}

end Competition

section Competing

end Competing

/-- What a symbol adds to the weight of a term. -/
def labelWeight : TermLabel → Nat
  | .op kind => kindWeight kind
  | _ => 1

/-- Every term has a positive weight. -/
theorem weight_pos (term : WILTerm) : 0 < term.weight labelWeight := by
  obtain ⟨symbol, args⟩ := term
  have positive : 0 < labelWeight symbol := by
    cases symbol with
    | op kind => exact kindWeight_pos kind
    | _ => exact Nat.one_pos
  rw [weight]
  omega

/-- The built-in rules make terms lighter. -/
theorem Redex.weight_lt {left right : WILTerm} (redex : Redex left right) :
    right.weight labelWeight < left.weight labelWeight := by
  have positive := weight_pos
  cases redex <;>
    simp only [weight, labelWeight, kindWeight, List.map_cons, List.map_nil, List.sum_cons,
      List.sum_nil]
  -- A rule with a constant on the right needs its dropped operands to weigh something.
  case addSelf x => exact (by have := positive x; omega)
  case divSelf x | eqSelf x | neSelf x => exact (by have := positive x; omega)
  all_goals omega

end Wirble
