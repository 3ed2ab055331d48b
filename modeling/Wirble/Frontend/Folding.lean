import Wirble.Frontend.Expr
import Wirble.Library.Signed
import Wirble.Wil.Integers

/-! Constant folding computes with 64 bits what the nodes it replaces compute with 32. -/

namespace Wirble

open WILContext

/-! The meanings of an expression. -/

/-- The trees that folding visits: the expression itself and all trees below it. -/
def WirbleExpr.subtrees : WirbleExpr → List WirbleExpr
  | .int value => [.int value]
  | .unary op operand => .unary op operand :: operand.subtrees
  | .binary op lhs rhs => .binary op lhs rhs :: (lhs.subtrees ++ rhs.subtrees)

/-- An operator on numbers of any size. A quotient loses its fraction. -/
def WirbleBinaryOp.exact : WirbleBinaryOp → Int → Int → Option Int
  | .add, a, b => some (a + b)
  | .sub, a, b => some (a - b)
  | .mul, a, b => some (a * b)
  | .div, a, b => if b = 0 then none else some (a.tdiv b)

/-- An operator of 64 bits, which has no result where it is undefined. -/
def WirbleBinaryOp.checked : WirbleBinaryOp → Int → Int → Option Int
  | .add => Signed.add 64
  | .sub => Signed.sub 64
  | .mul => Signed.mul 64
  | .div => Signed.div 64

/-- An operator as folding carries it out. -/
def WirbleBinaryOp.folded : WirbleBinaryOp → BitVec 64 → BitVec 64 → Option (BitVec 64)
  | .add, x, y => some (x + y)
  | .sub, x, y => some (x - y)
  | .mul, x, y => some (x * y)
  | .div, x, y => if y = 0 then none else some (x.sdiv y)

/-- An operator on two's complement words of 32 bits. -/
def WirbleBinaryOp.word : WirbleBinaryOp → BitVec 32 → BitVec 32 → BitVec 32
  | .add, x, y => x + y
  | .sub, x, y => x - y
  | .mul, x, y => x * y
  | .div, x, y => Word.div x y

/-- The number that an expression stands for, unless it divides by zero. -/
def WirbleExpr.exact : WirbleExpr → Option Int
  | .int value => some value.toInt
  | .unary .neg operand => operand.exact.map (- ·)
  | .binary op lhs rhs => lhs.exact.bind fun a => rhs.exact.bind fun b => op.exact a b

/-- The value of an expression whose operations are all defined in 64 bits. -/
def WirbleExpr.checked : WirbleExpr → Option Int
  | .int value => some value.toInt
  | .unary .neg operand => operand.checked.bind (Signed.neg 64)
  | .binary op lhs rhs => lhs.checked.bind fun a => rhs.checked.bind fun b => op.checked a b

/-- The value of an expression, operation by operation, in words of 32 bits. -/
def WirbleExpr.eval32 : WirbleExpr → BitVec 32
  | .int value => value.setWidth 32
  | .unary .neg operand => -operand.eval32
  | .binary op lhs rhs => op.word lhs.eval32 rhs.eval32

/-! What folding leaves of a tree. -/

/-- An operation is constant if its operands are and folding gives a number. -/
theorem wirbleExprIsConst_binary (op : WirbleBinaryOp) (lhs rhs : WirbleExpr) :
    wirbleExprIsConst (.binary op lhs rhs) =
      (wirbleExprIsConst lhs).bind fun x =>
        (wirbleExprIsConst rhs).bind fun y => op.folded x y := by
  cases op <;> rfl

/-- Folding the end of a tree keeps its value. -/
theorem wirbleExprIsConst_folded (expr : WirbleExpr) :
    wirbleExprIsConst (wirbleExprFolded expr) = wirbleExprIsConst expr := by
  rw [wirbleExprFolded]
  cases known : wirbleExprIsConst expr with
  | some value => rfl
  | none => exact known

/-- Folding keeps the value of a tree. -/
theorem wirbleExprIsConst_foldConstants (expr : WirbleExpr) :
    wirbleExprIsConst (wirbleExprFoldConstants expr) = wirbleExprIsConst expr := by
  -- The induction is on the tree, since the operands are folded first.
  induction expr with
  | int value => rfl
  | unary op operand next =>
    cases op
    rw [wirbleExprFoldConstants, wirbleExprIsConst_folded, wirbleExprIsConst, next,
      wirbleExprIsConst]
  | binary op lhs rhs left right =>
    rw [wirbleExprFoldConstants, wirbleExprIsConst_folded, wirbleExprIsConst_binary, left, right,
      wirbleExprIsConst_binary]

/-- A tree is replaced by a literal exactly if it has a value, which the literal is. -/
theorem wirbleExprFoldConstants_int {expr : WirbleExpr} {value : BitVec 64} :
    wirbleExprFoldConstants expr = .int value ↔ wirbleExprIsConst expr = some value := by
  have same := wirbleExprIsConst_foldConstants expr
  constructor
  · intro replaced
    rw [← same, replaced]
    rfl
  · intro known
    rw [known] at same
    -- Literals stay, and an operator whose folded tree has a value becomes that literal.
    cases expr with
    | int literal =>
      rw [wirbleExprIsConst, Option.some.injEq] at known
      rw [wirbleExprFoldConstants, known]
    | unary op operand =>
      rw [wirbleExprFoldConstants, wirbleExprIsConst_folded] at same
      rw [wirbleExprFoldConstants, wirbleExprFolded, same]
    | binary op lhs rhs =>
      rw [wirbleExprFoldConstants, wirbleExprIsConst_folded] at same
      rw [wirbleExprFoldConstants, wirbleExprFolded, same]

/-- A division whose divisor is zero stays, with its operands folded. -/
theorem wirbleExprFoldConstants_div {lhs rhs : WirbleExpr}
    (zero : wirbleExprIsConst rhs = some 0) :
    wirbleExprFoldConstants (.binary .div lhs rhs) =
      .binary .div (wirbleExprFoldConstants lhs) (.int 0) := by
  have divisor := wirbleExprFoldConstants_int.mpr zero
  rw [wirbleExprFoldConstants, divisor, wirbleExprFolded, wirbleExprIsConst_binary]
  -- No left operand gives the division a value.
  cases wirbleExprIsConst (wirbleExprFoldConstants lhs) with
  | none => rfl
  | some value => rfl

/-! The nodes of a tree compute its words. -/

section Lowered

variable {params : Nat → Option IntValue}
  {other : WILNode → List (Option IntValue) → Option IntValue}

/-- The operator of the graph computes the operator of the source on words. -/
theorem wilOperator_kind (op : WirbleBinaryOp) (x y : BitVec 32) :
    wilOperator op.kind [some ⟨32, x⟩, some ⟨32, y⟩] = some ⟨32, op.word x y⟩ := by
  cases op <;> exact IntValue.binary_some _ 32 x y

/-- Whatever assignment obeys the lowered graph gives the node of a tree its word. -/
theorem wirbleLowerExpr_value {ctx : WILContext} (consistent : DefUse ctx) (expr : WirbleExpr)
    {value : Option Nat → Option IntValue}
    (obeys : (wirbleLowerExpr ctx expr).1.Obeys (wilIntegers 32 params other) value) :
    value (some (wirbleLowerExpr ctx expr).2) = some ⟨32, expr.eval32⟩ := by
  -- The induction is on the tree, with the graph that the operands before it have left.
  induction expr generalizing ctx with
  | int literal =>
    refine (obeys_build (Nat.zero_le _) [] obeys.node).trans ?_
    show some (⟨32, BitVec.ofInt 32 literal.toInt⟩ : IntValue) = _
    rw [WirbleExpr.eval32, ← BitVec.signExtend, BitVec.signExtend_eq_setWidth_of_le _ (by omega)]
  | unary op operand next =>
    cases op
    obtain ⟨grows, inside, -⟩ := wirbleLowerExpr_lowered consistent operand
    have below := next consistent
    rw [wirbleLowerExpr] at obeys ⊢
    generalize wirbleLowerExpr ctx operand = result at grows inside below obeys
    obtain ⟨middle, ref⟩ := result
    -- The negation is a new node over that of the operand.
    have built : Grows middle (wilMakeUnary middle .neg (some ref)).1 :=
      grows_unary grows.consistent rfl inside
    -- The operand has its word already in the graph without the new node.
    have word : value (some ref) = some ⟨32, operand.eval32⟩ := below (built.obeys obeys)
    refine (obeys_build (Nat.zero_le _) [(some ref, .data)] obeys.node).trans ?_
    show wilOperator .neg [value (some ref)] = _
    rw [word]
    rfl
  | binary op lhs rhs left right =>
    obtain ⟨growsLeft, insideLeft, -⟩ := wirbleLowerExpr_lowered consistent lhs
    have belowLeft := left consistent
    rw [wirbleLowerExpr] at obeys ⊢
    generalize wirbleLowerExpr ctx lhs = result at growsLeft insideLeft belowLeft obeys
    obtain ⟨first, x⟩ := result
    obtain ⟨growsRight, insideRight, -⟩ := wirbleLowerExpr_lowered growsLeft.consistent rhs
    have belowRight := right growsLeft.consistent
    simp only at obeys ⊢
    generalize wirbleLowerExpr first rhs = result at growsRight insideRight belowRight obeys
    obtain ⟨second, y⟩ := result
    -- The new node is the last one, and the operands have their words in the graph before it.
    have built : Grows second (wilMakeBinary second op.kind (some x) (some y)).1 :=
      grows_binary growsRight.consistent op.kind_arity
        (Nat.lt_of_lt_of_le insideLeft growsRight.longer) insideRight
    have middle := built.obeys obeys
    have wordLeft : value (some x) = some ⟨32, lhs.eval32⟩ := belowLeft (growsRight.obeys middle)
    have wordRight : value (some y) = some ⟨32, rhs.eval32⟩ := belowRight middle
    refine (obeys_build (Nat.zero_le _) [(some x, .data), (some y, .data)] obeys.node).trans ?_
    rw [WILInterp.denote_operator _ op.kind_arity]
    show wilOperator op.kind [value (some x), value (some y)] = _
    rw [wordLeft, wordRight]
    exact wilOperator_kind op lhs.eval32 rhs.eval32

/-- The node of a tree denotes its word, in every graph that it is lowered into. -/
theorem wirbleLowerExpr_denotes {ctx : WILContext} (consistent : DefUse ctx)
    (ordered : ctx.Ordered) (expr : WirbleExpr) :
    (wirbleLowerExpr ctx expr).1.Denotes (wilIntegers 32 params other)
      (some (wirbleLowerExpr ctx expr).2) (some ⟨32, expr.eval32⟩) := by
  -- Growing keeps the graph free of cycles, so that it has a valuation.
  have lowered := wirbleLowerExpr_lowered consistent expr
  have grounded := (lowered.grows.ordered ordered).acyclic.grounded
  obtain ⟨value, valuation⟩ := grounded.exists_valuation
    ((wirbleLowerExpr ctx expr).1.label (wilIntegers 32 params other))
  have word := wirbleLowerExpr_value consistent expr (IsValuation.obeys valuation)
  rw [← word]
  exact grounded.denotes valuation _

end Lowered

/-! One operator with 64 bits and with 32. -/

/-- The quotient of the words of 32 bits is the word of the quotient. -/
def QuotientAgrees (a b : Int) : Prop :=
  BitVec.ofInt 32 (a.tdiv b) = Word.div (BitVec.ofInt 32 a) (BitVec.ofInt 32 b)

/-- What an operator asks of its operands: the result fits in 64 bits, and a quotient does not
depend on the upper halves. Division by zero is not carried out. -/
def WirbleBinaryOp.FoldsOn : WirbleBinaryOp → Int → Int → Prop
  | .add, a, b => Signed.AddFits 64 a b
  | .sub, a, b => Signed.SubFits 64 a b
  | .mul, a, b => Signed.MulFits 64 a b
  | .div, a, b => b = 0 ∨ Signed.DivFits 64 a b ∧ QuotientAgrees a b

/-- At every operator of the tree whose operands stand for numbers, these are such that it folds as
it is evaluated. -/
def WirbleExpr.FoldsWithin : WirbleExpr → Prop
  | .int _ => True
  | .unary .neg operand =>
    operand.FoldsWithin ∧ ∀ a, operand.exact = some a → Signed.NegFits 64 a
  | .binary op lhs rhs =>
    lhs.FoldsWithin ∧ rhs.FoldsWithin ∧
      ∀ a b, lhs.exact = some a → rhs.exact = some b → op.FoldsOn a b

/-- The operations of a tree are defined in 64 bits with the folded value, whose lower half is what
they give in 32 bits. -/
structure FoldsTo (checked : Option Int) (word : BitVec 32) (value : BitVec 64) : Prop where
  defined : checked = some value.toInt
  low : value.setWidth 32 = word

section Operators

variable (x y : BitVec 64)

/-- Cutting a word keeps its integer modulo 2^32. -/
theorem setWidth_eq_ofInt : x.setWidth 32 = BitVec.ofInt 32 x.toInt := by
  rw [← BitVec.signExtend, BitVec.signExtend_eq_setWidth_of_le x (by omega)]

/-- Cutting a difference is subtracting what was cut. -/
theorem setWidth_sub : (x - y).setWidth 32 = x.setWidth 32 - y.setWidth 32 := by
  rw [BitVec.sub_eq_add_neg, BitVec.setWidth_add _ _ (by omega),
    BitVec.setWidth_neg_of_le (by omega), BitVec.sub_eq_add_neg]

/-- Cutting a negation is negating what was cut. -/
theorem setWidth_neg : (-x).setWidth 32 = -x.setWidth 32 := BitVec.setWidth_neg_of_le (by omega)

/-- The number of a result that is defined is that of the word computed for it. -/
theorem toInt_of_word {exact value : Int} {word : BitVec 64}
    (result : Signed.checked 64 exact = some value) (computed : BitVec.ofInt 64 value = word) :
    word.toInt = value := by
  rw [← computed]
  exact Signed.toInt_of_checked (by omega) result

/-- Where an operator is defined, folding computes its result. -/
theorem folded_of_checked {op : WirbleBinaryOp} {value : Int}
    (result : op.checked x.toInt y.toInt = some value) :
    ∃ word, op.folded x y = some word ∧ word.toInt = value := by
  cases op with
  | add => exact ⟨x + y, rfl, toInt_of_word result (Signed.add_word x y result)⟩
  | sub => exact ⟨x - y, rfl, toInt_of_word result (Signed.sub_word x y result)⟩
  | mul => exact ⟨x * y, rfl, toInt_of_word result (Signed.mul_word x y result)⟩
  | div =>
    have divisor := Signed.ne_zero_of_div x y (Option.isSome_of_eq_some result)
    have quotient := Signed.div_word x y result
    rw [Word.div, if_neg divisor] at quotient
    refine ⟨x.sdiv y, if_neg divisor, ?_⟩
    -- The quotient has been checked, since the divisor is not zero.
    rw [WirbleBinaryOp.checked, Signed.div] at result
    split at result
    · cases result
    · exact toInt_of_word result quotient

/-- Where an operator is defined, its result is the exact one. -/
theorem exact_of_checked {op : WirbleBinaryOp} {a b value : Int}
    (result : op.checked a b = some value) : op.exact a b = some value := by
  cases op with
  -- Sums, differences and products are defined as the exact results in range.
  | add | sub | mul => exact congrArg some (Signed.of_checked result).symm
  | div =>
    -- Quotients are defined for a divisor other than zero.
    rw [WirbleBinaryOp.checked, Signed.div] at result
    rw [WirbleBinaryOp.exact]
    split at result
    · cases result
    · next divisor => rw [if_neg divisor, Signed.of_checked result]

/-- Folding leaves an operator only where there is no exact result either. -/
theorem exact_of_folded {op : WirbleBinaryOp} (kept : op.folded x y = none) :
    op.exact x.toInt y.toInt = none := by
  cases op with
  | add | sub | mul => cases kept
  | div =>
    rw [WirbleBinaryOp.folded] at kept
    -- Only a division by zero is left alone.
    split at kept
    · next zero =>
      rw [zero]
      rfl
    · cases kept

/-- A folded operator is right as soon as it is defined, and its lower half does not depend on the
upper halves of the operands. -/
theorem foldsTo_iff {op : WirbleBinaryOp} {value : BitVec 64} {word : BitVec 32}
    (folded : op.folded x y = some value) :
    FoldsTo (op.checked x.toInt y.toInt) word value ↔
      (op.checked x.toInt y.toInt).isSome = true ∧ value.setWidth 32 = word := by
  constructor
  · intro folds
    exact ⟨Option.isSome_of_eq_some folds.defined, folds.low⟩
  · intro ⟨defined, low⟩
    -- A defined result is what folding computes.
    obtain ⟨number, result⟩ := Option.isSome_iff_exists.mp defined
    obtain ⟨value', folded', same⟩ := folded_of_checked x y result
    rw [folded, Option.some.injEq] at folded'
    exact ⟨by rw [result, folded', same], low⟩

/-- The condition on an operator is exact. -/
theorem foldsOn_iff (op : WirbleBinaryOp) :
    op.FoldsOn x.toInt y.toInt ↔ ∀ value, op.folded x y = some value →
      FoldsTo (op.checked x.toInt y.toInt) (op.word (x.setWidth 32) (y.setWidth 32)) value := by
  have left : Signed.Fits 64 x.toInt := Signed.fits_toInt x
  have right : Signed.Fits 64 y.toInt := Signed.fits_toInt y
  -- The lower halves of sums, differences and products are those of the operands.
  have ring {op : WirbleBinaryOp} {value : BitVec 64} (folded : op.folded x y = some value)
      (low : value.setWidth 32 = op.word (x.setWidth 32) (y.setWidth 32)) :
      (op.checked x.toInt y.toInt).isSome = true ↔ ∀ value, op.folded x y = some value →
        FoldsTo (op.checked x.toInt y.toInt) (op.word (x.setWidth 32) (y.setWidth 32)) value := by
    simp only [folded, Option.some.injEq, forall_eq', foldsTo_iff x y folded, low, and_true]
  cases op with
  | add =>
    rw [← ring rfl (BitVec.setWidth_add x y (by omega))]
    exact (Signed.add_isSome left).symm
  | sub =>
    rw [← ring rfl (setWidth_sub x y)]
    exact (Signed.sub_isSome left).symm
  | mul =>
    rw [← ring rfl (BitVec.setWidth_mul x y (by omega))]
    exact Signed.mul_isSome.symm
  | div =>
    rw [WirbleBinaryOp.FoldsOn]
    -- A zero divisor does not fold.
    by_cases zero : y = 0
    · rw [zero]
      exact iff_of_true (.inl rfl) nofun
    have divisor : y.toInt ≠ 0 := by
      intro none
      exact zero (BitVec.eq_of_toInt_eq none)
    have folded : WirbleBinaryOp.div.folded x y = some (x.sdiv y) := if_neg zero
    simp only [divisor, false_or, folded, Option.some.injEq, forall_eq', foldsTo_iff x y folded]
    -- The least number divided by minus one overflows.
    have fits := Signed.div_isSome left right divisor
    refine and_congr_right_iff.mpr ?_ |>.trans (and_congr_left' fits.symm)
    intro within
    -- A quotient that fits is the one of the words.
    obtain ⟨number, result⟩ := Option.isSome_iff_exists.mp (fits.mpr within)
    obtain ⟨word, folded', same⟩ := @folded_of_checked x y .div number result
    have exact := exact_of_checked (show WirbleBinaryOp.div.checked _ _ = _ from result)
    rw [WirbleBinaryOp.exact, if_neg divisor, Option.some.injEq] at exact
    rw [folded, Option.some.injEq] at folded'
    rw [QuotientAgrees, exact, ← same, ← folded', ← setWidth_eq_ofInt, ← setWidth_eq_ofInt,
      ← setWidth_eq_ofInt]
    rfl

end Operators

/-! Whole trees. -/

/-- What is known of a tree that folds as it is evaluated. -/
structure WirbleExpr.Folds (expr : WirbleExpr) : Prop where
  exact : expr.exact = (wirbleExprIsConst expr).map (·.toInt)
  right : ∀ value, wirbleExprIsConst expr = some value → FoldsTo expr.checked expr.eval32 value

section Trees

variable {op : WirbleBinaryOp} {operand lhs rhs : WirbleExpr}

/-- A negation is asked only not to overflow. -/
theorem WirbleExpr.Folds.neg (folds : operand.Folds) :
    (∀ a, operand.exact = some a → Signed.NegFits 64 a) ↔
      ∀ value, wirbleExprIsConst (.unary .neg operand) = some value →
        FoldsTo (WirbleExpr.unary .neg operand).checked (WirbleExpr.unary .neg operand).eval32
          value := by
  obtain ⟨exact, right⟩ := folds
  rw [exact, wirbleExprIsConst, WirbleExpr.checked, WirbleExpr.eval32]
  cases known : wirbleExprIsConst operand with
  | none =>
    -- Nothing is folded.
    simp
  | some x =>
    obtain ⟨defined, low⟩ := right x known
    simp only [Option.map_some, Option.some.injEq, forall_eq']
    rw [defined, Option.bind_some, ← Signed.neg_isSome (Signed.fits_toInt x), ← low]
    constructor
    · intro fits
      obtain ⟨value, result⟩ := Option.isSome_iff_exists.mp fits
      have number := toInt_of_word result (Signed.neg_word x result)
      exact ⟨by rw [result, number], setWidth_neg x⟩
    · intro folds
      exact Option.isSome_of_eq_some folds.defined

/-- An operator on two trees that fold. -/
theorem WirbleExpr.Folds.binary (left : lhs.Folds) (right : rhs.Folds) :
    (∀ a b, lhs.exact = some a → rhs.exact = some b → op.FoldsOn a b) ↔
      ∀ value, wirbleExprIsConst (.binary op lhs rhs) = some value →
        FoldsTo (WirbleExpr.binary op lhs rhs).checked (WirbleExpr.binary op lhs rhs).eval32
          value := by
  obtain ⟨exactLeft, foldsLeft⟩ := left
  obtain ⟨exactRight, foldsRight⟩ := right
  rw [exactLeft, exactRight, wirbleExprIsConst_binary, WirbleExpr.checked, WirbleExpr.eval32]
  -- Without the value of an operand, neither side asks for anything.
  cases knownLeft : wirbleExprIsConst lhs with
  | none => exact iff_of_true nofun nofun
  | some x =>
    cases knownRight : wirbleExprIsConst rhs with
    | none => exact iff_of_true nofun nofun
    | some y =>
      -- Both operands have the values that they fold to.
      obtain ⟨definedLeft, lowLeft⟩ := foldsLeft x knownLeft
      obtain ⟨definedRight, lowRight⟩ := foldsRight y knownRight
      rw [definedLeft, definedRight, ← lowLeft, ← lowRight]
      refine Iff.trans ?_ (foldsOn_iff x y op)
      constructor
      -- The condition on the operands' values is the condition on the operator.
      · intro fits
        exact fits _ _ rfl rfl
      · intro fits a b first second
        rw [← Option.some.inj first, ← Option.some.inj second]
        exact fits

/-- The exact value of a negation that is right. -/
theorem WirbleExpr.Folds.exact_neg (folds : operand.Folds)
    (right : ∀ value, wirbleExprIsConst (.unary .neg operand) = some value →
      FoldsTo (WirbleExpr.unary .neg operand).checked (WirbleExpr.unary .neg operand).eval32
        value) : (WirbleExpr.unary .neg operand).Folds := by
  refine ⟨?_, right⟩
  rw [WirbleExpr.exact, folds.exact, wirbleExprIsConst, Option.map_map, Option.map_map]
  cases known : wirbleExprIsConst operand with
  | none => rfl
  | some x =>
    -- The negation is right, so its result is in range and exact.
    have value := right (-x) (by rw [wirbleExprIsConst, known]; rfl)
    have defined := value.defined
    rw [WirbleExpr.checked, (folds.right x known).defined, Option.bind_some] at defined
    exact congrArg some (Signed.of_checked defined).symm

/-- An operation folds if its operands do, with the value of the machine. -/
theorem WirbleExpr.Folds.exact_binary (left : lhs.Folds) (right : rhs.Folds)
    (folds : ∀ value, wirbleExprIsConst (.binary op lhs rhs) = some value →
      FoldsTo (WirbleExpr.binary op lhs rhs).checked (WirbleExpr.binary op lhs rhs).eval32
        value) : (WirbleExpr.binary op lhs rhs).Folds := by
  -- The value over the integers follows the fold, so the operands decide the cases.
  refine ⟨?_, folds⟩
  rw [wirbleExprIsConst_binary, WirbleExpr.checked] at folds
  rw [WirbleExpr.exact, left.exact, right.exact, wirbleExprIsConst_binary]
  -- Without the value of an operand nothing is folded.
  cases knownLeft : wirbleExprIsConst lhs with
  | none => rfl
  | some x =>
    cases knownRight : wirbleExprIsConst rhs with
    | none => rfl
    | some y =>
      rw [knownLeft, knownRight, (left.right x knownLeft).defined,
        (right.right y knownRight).defined] at folds
      -- The operands have values, and the operation has the exact one or folds to nothing.
      show op.exact x.toInt y.toInt = (op.folded x y).map (·.toInt)
      cases folded : op.folded x y with
      | none => exact exact_of_folded x y folded
      | some value => exact exact_of_checked (folds value folded).defined

end Trees

/-- A tree within the condition folds as it is evaluated. -/
theorem WirbleExpr.FoldsWithin.folds : ∀ {expr : WirbleExpr}, expr.FoldsWithin → expr.Folds
  | .int literal, _ => by
    -- A literal is its own value.
    refine ⟨rfl, fun value known => ?_⟩
    rw [wirbleExprIsConst, Option.some.injEq] at known
    rw [← known]
    exact ⟨rfl, rfl⟩
  | .unary .neg operand, within => by
    -- The operand folds by induction, and the condition is about the negation of its value.
    have folds := FoldsWithin.folds within.1
    exact folds.exact_neg (folds.neg.mp within.2)
  | .binary op lhs rhs, within => by
    -- Both operands fold by induction, and the condition is about the operator on their values.
    have left := FoldsWithin.folds within.1
    have right := FoldsWithin.folds within.2.1
    exact left.exact_binary right ((left.binary right).mp within.2.2)

/-- An expression is one of its own parts. -/
theorem WirbleExpr.self_mem_subtrees (expr : WirbleExpr) : expr ∈ expr.subtrees := by
  cases expr <;> exact List.mem_cons_self

/-- The condition holds of a tree with all trees below it. -/
theorem WirbleExpr.FoldsWithin.below : ∀ {expr : WirbleExpr}, expr.FoldsWithin →
    ∀ sub ∈ expr.subtrees, sub.FoldsWithin
  | .int literal, within, sub, member => by
    rw [List.mem_singleton.mp member]
    exact within
  | .unary .neg operand, within, sub, member => by
    -- The tree itself, or one below the operand.
    rcases List.mem_cons.mp member with same | below
    · rw [same]
      exact within
    · exact FoldsWithin.below within.1 sub below
  | .binary op lhs rhs, within, sub, member => by
    -- The tree itself, or one below either operand.
    rcases List.mem_cons.mp member with same | below
    · rw [same]
      exact within
    · rcases List.mem_append.mp below with left | right
      · exact FoldsWithin.below within.1 sub left
      · exact FoldsWithin.below within.2.1 sub right

/-- The condition is necessary at every operator. -/
theorem WirbleExpr.foldsWithin_of_subtrees : ∀ {expr : WirbleExpr},
    (∀ sub ∈ expr.subtrees, ∀ value, wirbleExprIsConst sub = some value →
      FoldsTo sub.checked sub.eval32 value) → expr.FoldsWithin
  | .int literal, _ => trivial
  | .unary .neg operand, right => by
    -- The operand folds as it is evaluated, so that its value is exact.
    have within : operand.FoldsWithin :=
      foldsWithin_of_subtrees fun sub member => right sub (List.mem_cons_of_mem _ member)
    exact ⟨within, within.folds.neg.mpr (right _ List.mem_cons_self)⟩
  | .binary op lhs rhs, right => by
    -- The condition holds of the trees below, hence at the operands, and is then that of the
    -- operator.
    have left : lhs.FoldsWithin := foldsWithin_of_subtrees fun sub member =>
      right sub (List.mem_cons_of_mem _ (List.mem_append_left _ member))
    have last : rhs.FoldsWithin := foldsWithin_of_subtrees fun sub member =>
      right sub (List.mem_cons_of_mem _ (List.mem_append_right _ member))
    exact ⟨left, last, (left.folds.binary last.folds).mpr (right _ List.mem_cons_self)⟩

/-- Operands of 32 bits have the same quotient in 32 and in 64 bits. -/
theorem quotientAgrees_of_fits {a b : Int} (left : Signed.Fits 32 a) (right : Signed.Fits 32 b)
    (divisor : b ≠ 0) : QuotientAgrees a b := by
  -- Cutting a number of 32 bits to a word loses nothing.
  have number {c : Int} (fits : Signed.Fits 32 c) : (BitVec.ofInt 32 c).toInt = c :=
    Signed.toInt_of_checked (by omega) (if_pos fits)
  have nonzero : BitVec.ofInt 32 b ≠ 0#32 := by
    intro zero
    have same := number right
    rw [zero] at same
    exact divisor same.symm
  rw [QuotientAgrees, Word.div, if_neg nonzero]
  apply BitVec.eq_of_toInt_eq
  rw [BitVec.toInt_ofInt, BitVec.toInt_sdiv, number left, number right]

/-- Numbers of 32 bits are numbers of 64 bits. -/
theorem fits_of_small {a : Int} (small : Signed.Fits 32 a) : Signed.Fits 64 a := by
  unfold Signed.Fits Signed.least Signed.most at small ⊢
  omega

/-- Operands of 32 bits fold rightly if their exact result has 32 bits. -/
theorem foldsOn_of_small {op : WirbleBinaryOp} {a b : Int} (left : Signed.Fits 32 a)
    (right : Signed.Fits 32 b)
    (result : ∀ value, op.exact a b = some value → Signed.Fits 32 value) : op.FoldsOn a b := by
  have wideLeft := fits_of_small left
  have wideRight := fits_of_small right
  cases op with
  -- A result that fits is within the limits of the operation.
  | add =>
    apply (Signed.add_isSome wideLeft).mp
    exact Signed.checked_isSome.mpr (fits_of_small (result _ rfl))
  | sub =>
    apply (Signed.sub_isSome wideLeft).mp
    exact Signed.checked_isSome.mpr (fits_of_small (result _ rfl))
  | mul =>
    apply Signed.mul_isSome.mp
    exact Signed.checked_isSome.mpr (fits_of_small (result _ rfl))
  | div =>
    rcases eq_or_ne b 0 with zero | divisor
    · exact .inl zero
    · refine .inr ⟨?_, quotientAgrees_of_fits left right divisor⟩
      -- The least number of 64 bits is none of 32 bits.
      unfold Signed.DivFits
      unfold Signed.Fits Signed.least Signed.most at left
      unfold Signed.least
      omega

/-- A tree folds as it is evaluated if all numbers in it fit in 32 bits. -/
theorem WirbleExpr.foldsWithin_of_small : ∀ {expr : WirbleExpr},
    (∀ sub ∈ expr.subtrees, ∀ a, sub.exact = some a → Signed.Fits 32 a) → expr.FoldsWithin
  | .int literal, _ => trivial
  | .unary .neg operand, small => by
    have below : ∀ sub ∈ operand.subtrees, ∀ a, sub.exact = some a → Signed.Fits 32 a :=
      fun sub member => small sub (List.mem_cons_of_mem _ member)
    -- A negation fits when its operand is not the least number.
    refine ⟨foldsWithin_of_small below, fun a exact => ?_⟩
    have fits := below operand operand.self_mem_subtrees a exact
    unfold Signed.NegFits
    unfold Signed.Fits Signed.least Signed.most at fits
    unfold Signed.least
    omega
  | .binary op lhs rhs, small => by
    -- The numbers of both operands are numbers of the tree.
    have left : ∀ sub ∈ lhs.subtrees, ∀ a, sub.exact = some a → Signed.Fits 32 a :=
      fun sub member => small sub (List.mem_cons_of_mem _ (List.mem_append_left _ member))
    have right : ∀ sub ∈ rhs.subtrees, ∀ a, sub.exact = some a → Signed.Fits 32 a :=
      fun sub member => small sub (List.mem_cons_of_mem _ (List.mem_append_right _ member))
    refine ⟨foldsWithin_of_small left, foldsWithin_of_small right, fun a b first second => ?_⟩
    refine foldsOn_of_small (left lhs lhs.self_mem_subtrees a first)
      (right rhs rhs.self_mem_subtrees b second) fun value result => ?_
    -- The result is the number of the whole tree.
    apply small _ List.mem_cons_self value
    rw [WirbleExpr.exact, first, second]
    exact result

/-- An expression that is defined in 64 bits is folded to its value. -/
theorem wirbleExprIsConst_of_checked : ∀ {expr : WirbleExpr} {value : Int},
    expr.checked = some value → ∃ word, wirbleExprIsConst expr = some word ∧ word.toInt = value
  | .int literal, value, defined => ⟨literal, rfl, Option.some.inj defined⟩
  | .unary .neg operand, value, defined => by
    -- The operand is defined, and folded by induction.
    obtain ⟨a, below, result⟩ := Option.bind_eq_some_iff.mp defined
    obtain ⟨x, known, rfl⟩ := wirbleExprIsConst_of_checked below
    refine ⟨-x, ?_, toInt_of_word result (Signed.neg_word x result)⟩
    rw [wirbleExprIsConst, known]
    rfl
  | .binary op lhs rhs, value, defined => by
    -- Both operands are defined, and folded by induction.
    obtain ⟨a, left, rest⟩ := Option.bind_eq_some_iff.mp defined
    obtain ⟨b, right, result⟩ := Option.bind_eq_some_iff.mp rest
    obtain ⟨x, knownLeft, rfl⟩ := wirbleExprIsConst_of_checked left
    obtain ⟨y, knownRight, rfl⟩ := wirbleExprIsConst_of_checked right
    obtain ⟨word, folded, same⟩ := folded_of_checked x y result
    refine ⟨word, ?_, same⟩
    rw [wirbleExprIsConst_binary, knownLeft, knownRight]
    exact folded

/-- Folding a tree agrees with the operations that it removes, and leaves a division by zero. -/
structure FoldedRight (expr : WirbleExpr) : Prop where
  agrees : ∀ value, wirbleExprFoldConstants expr = .int value →
    FoldsTo expr.checked expr.eval32 value
  /-- The literal is what the nodes of the tree compute, wherever they are built. -/
  computes : ∀ value, wirbleExprFoldConstants expr = .int value →
    ∀ ctx : WILContext, DefUse ctx → ctx.Ordered →
      ∀ (params : Nat → Option IntValue)
        (other : WILNode → List (Option IntValue) → Option IntValue),
        (wirbleLowerExpr ctx expr).1.Denotes (wilIntegers 32 params other)
          (some (wirbleLowerExpr ctx expr).2) (some ⟨32, value.setWidth 32⟩)
  kept : ∀ lhs rhs, expr = .binary .div lhs rhs → rhs.checked = some 0 →
    wirbleExprFoldConstants expr = .binary .div (wirbleExprFoldConstants lhs) (.int 0)

/-- Only the value of a tree can be wrong: its nodes compute the words of 32 bits, and a division
by zero is left alone. -/
theorem foldedRight_iff (expr : WirbleExpr) : FoldedRight expr ↔
    ∀ value, wirbleExprIsConst expr = some value → FoldsTo expr.checked expr.eval32 value := by
  constructor
  · intro folded value known
    exact folded.agrees value (wirbleExprFoldConstants_int.mpr known)
  · intro right
    -- The graph computes the words of 32 bits, which are the low half of a right value.
    refine ⟨fun value folded => right value (wirbleExprFoldConstants_int.mp folded), ?_, ?_⟩
    · intro value folded ctx consistent ordered params other
      rw [(right value (wirbleExprFoldConstants_int.mp folded)).low]
      exact wirbleLowerExpr_denotes consistent ordered expr
    · intro lhs rhs division zero
      -- A divisor that is zero is folded to zero, and the division is left alone.
      obtain ⟨word, known, none⟩ := wirbleExprIsConst_of_checked zero
      have same : word = 0 := BitVec.eq_of_toInt_eq none
      rw [division]
      exact wirbleExprFoldConstants_div (same ▸ known)

/-- Folding a tree and all trees below it is right exactly if no operator overflows and every
quotient is the same in 32 bits. -/
theorem wirbleExprFoldConstants_right_iff (expr : WirbleExpr) :
    (∀ sub ∈ expr.subtrees, FoldedRight sub) ↔ expr.FoldsWithin := by
  -- The trees of the condition and the subtrees are the same ones.
  simp only [foldedRight_iff]
  constructor
  · intro right
    exact WirbleExpr.foldsWithin_of_subtrees right
  · intro within sub member
    exact (within.below sub member).folds.right

/-- The quotient of a number above 32 bits is not that of its lower half. -/
theorem wirbleExprFoldConstants_not_right :
    ¬ ∀ expr : WirbleExpr, ∀ sub ∈ expr.subtrees, FoldedRight sub := by
  intro right
  let expr : WirbleExpr := .binary .div (.int 4294967296) (.int 2)
  have folded := (right expr expr expr.self_mem_subtrees).agrees 2147483648 (by decide +kernel)
  -- The lower half of the dividend is zero.
  exact absurd folded.low (by decide +kernel)

end Wirble
