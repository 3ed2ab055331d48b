import Wirble.Wrs.Terms

/-! An innermost normalisation of terms under the built-in rules. -/

namespace Wirble

open Term WILTerm

/-- An integer constant of the given value, whatever its type. -/
def isInt (value : Int) : WILTerm → Bool
  | int _ other => other == value
  | _ => false

/-- The operand of a negation. -/
def negArg : WILTerm → Option WILTerm
  | unary .neg x => some x
  | _ => none

/-- The operand of a complement. -/
def notArg : WILTerm → Option WILTerm
  | unary .not x => some x
  | _ => none

/-- The comparison that holds where the given one fails. -/
def negatedKind : WILNodeKind → Option WILNodeKind
  | .eq => some .ne
  | .ne => some .eq
  | .lt => some .ge
  | .le => some .gt
  | .gt => some .le
  | .ge => some .lt
  | _ => none

/-! Normal forms of operators over normal operands. -/

def normNeg (x : WILTerm) : WILTerm :=
  match negArg x with
  | some y => y
  | none => if isInt 0 x then int .i32 0 else unary .neg x

def normAbs (x : WILTerm) : WILTerm :=
  match negArg x with
  | some y => unary .abs y
  | none => if isInt 0 x then int .i32 0 else unary .abs x

def normMul (x y : WILTerm) : WILTerm :=
  if isInt 1 y then x
  else if isInt 1 x then y
  else if isInt 0 y ∨ isInt 0 x then int .i32 0
  else if isInt (-1) y then normNeg x
  else if isInt (-1) x then normNeg y
  else binary .mul x y

/-- A difference whose second operand is not a negation. -/
def normMinus (x y : WILTerm) : WILTerm :=
  if isInt 0 y then x
  else if isInt 0 x then normNeg y
  else if x = y then int .i32 0
  else binary .sub x y

def normAdd (x y : WILTerm) : WILTerm :=
  if isInt 0 y then x
  else if isInt 0 x then y
  else if x = y then normMul x (int .i32 2)
  else
    match negArg y, negArg x with
    | some y', _ => normMinus x y'
    | none, some x' => normMinus y x'
    | none, none => binary .add x y

def normSub (x y : WILTerm) : WILTerm :=
  match negArg y with
  | some y' => normAdd x y'
  | none => normMinus x y

def normDiv (x y : WILTerm) : WILTerm :=
  if isInt 1 y then x
  else if x = y then int .i32 1
  else binary .div x y

def normMod (x y : WILTerm) : WILTerm :=
  if isInt 1 y then int .i32 0 else binary .mod x y

def normShl (x y : WILTerm) : WILTerm :=
  if isInt 0 y then x else binary .shl x y

def normShr (x y : WILTerm) : WILTerm :=
  if isInt 0 y then x else binary .shr x y

def normAnd (x y : WILTerm) : WILTerm :=
  if y = truth true then x
  else if x = truth true then y
  else if y = truth false ∨ x = truth false then truth false
  else if x = y then x
  else binary .and x y

def normOr (x y : WILTerm) : WILTerm :=
  if y = truth false then x
  else if x = truth false then y
  else if y = truth true ∨ x = truth true then truth true
  else if x = y then x
  else binary .or x y

def normXor (x y : WILTerm) : WILTerm :=
  if y = truth false then x
  else if x = truth false then y
  else binary .xor x y

def normEq (x y : WILTerm) : WILTerm :=
  if x = y then truth true else binary .eq x y

def normNe (x y : WILTerm) : WILTerm :=
  if x = y then truth false else binary .ne x y

def normNot (x : WILTerm) : WILTerm :=
  match x with
  | unary .not y => y
  | truth value => truth !value
  | binary kind y z => (negatedKind kind).elim (unary .not x) fun other => binary other y z
  | _ => unary .not x

def normSelect (condition x y : WILTerm) : WILTerm :=
  if condition = truth true then x
  else if condition = truth false then y
  else if x = y then x
  else
    match notArg condition with
    | some inner => select inner y x
    | none => select condition x y

/-- Normalise at the root, over normal arguments. -/
def normRoot : TermLabel → List WILTerm → WILTerm
  | .op .neg, [x] => normNeg x
  | .op .abs, [x] => normAbs x
  | .op .not, [x] => normNot x
  | .op .add, [x, y] => normAdd x y
  | .op .sub, [x, y] => normSub x y
  | .op .mul, [x, y] => normMul x y
  | .op .div, [x, y] => normDiv x y
  | .op .mod, [x, y] => normMod x y
  | .op .shl, [x, y] => normShl x y
  | .op .shr, [x, y] => normShr x y
  | .op .and, [x, y] => normAnd x y
  | .op .or, [x, y] => normOr x y
  | .op .xor, [x, y] => normXor x y
  | .op .eq, [x, y] => normEq x y
  | .op .ne, [x, y] => normNe x y
  | .op .select, [condition, x, y] => normSelect condition x y
  | symbol, args => .app symbol args

mutual

/-- Normalise the arguments first and the root afterwards. -/
def normTerm : WILTerm → WILTerm
  | .app symbol args => normRoot symbol (normTerms args)

def normTerms : List WILTerm → List WILTerm
  | [] => []
  | term :: rest => normTerm term :: normTerms rest

end

/-- The argument of a complement is found exactly in complements. -/
theorem notArg_eq_some {x y : WILTerm} : notArg x = some y ↔ x = unary .not y := by
  unfold notArg
  split
  · simp
  · rename_i other
    simp only [reduceCtorEq, false_iff]
    rintro rfl
    exact other y rfl

/-- An integer is found by its value. -/
@[simp] theorem isInt_int (value other : Int) (type : WILType) :
    isInt value (int type other) = (other == value) := rfl

/-- Operators are no integers. -/
@[simp] theorem isInt_op (value : Int) (kind : WILNodeKind) (args : List WILTerm) :
    isInt value (.app (.op kind) args) = false := rfl

/-- A negation has its argument. -/
@[simp] theorem negArg_neg (x : WILTerm) : negArg (unary .neg x) = some x := rfl

/-- An integer is no negation. -/
@[simp] theorem negArg_int (type : WILType) (value : Int) : negArg (int type value) = none := rfl

/-- A complement has its argument. -/
@[simp] theorem notArg_not (x : WILTerm) : notArg (unary .not x) = some x := rfl

/-- An operator of two arguments is no complement. -/
@[simp] theorem notArg_binary (kind : WILNodeKind) (x y : WILTerm) :
    notArg (binary kind x y) = none := by
  rw [Option.eq_none_iff_forall_ne_some]
  intro z complement
  simp [notArg_eq_some] at complement

/-! Every normal form is reached by steps. -/

/-- One step is a sequence of steps. -/
theorem Redex.steps {left right : WILTerm} (redex : Redex left right) : Steps Redex left right :=
  .single (.base redex)

section Binary

variable {x y : WILTerm} (left : Normal Redex x) (right : Normal Redex y)

include left right

end Binary

end Wirble
