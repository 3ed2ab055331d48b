import Wirble.Wil.Semantics
import Wirble.Library.Word

/-! The integer meaning of WIL operators, at any width. -/

namespace Wirble

/-- An integer together with its width, where truth values have width one. -/
abbrev IntValue := (width : Nat) × BitVec width

namespace IntValue

/-- A truth value. -/
def truth (value : Bool) : IntValue := ⟨1, BitVec.ofBool value⟩

/-- Apply a width-preserving operation to one operand. -/
def unary (op : (width : Nat) → BitVec width → BitVec width) :
    Option IntValue → Option IntValue
  | some ⟨width, x⟩ => some ⟨width, op width x⟩
  | none => none

/-- Apply an operation to two operands of one width, and to no others. -/
def sameWidth (op : (width : Nat) → BitVec width → BitVec width → IntValue) :
    Option IntValue → Option IntValue → Option IntValue
  | some ⟨width, x⟩, some ⟨width', y⟩ =>
    if equal : width' = width then some (op width x (y.cast equal)) else none
  | _, _ => none

/-- Apply a width-preserving operation to two operands of one width. -/
def binary (op : (width : Nat) → BitVec width → BitVec width → BitVec width) :
    Option IntValue → Option IntValue → Option IntValue :=
  sameWidth fun width x y => ⟨width, op width x y⟩

/-- Compare two operands of one width. -/
def compare (op : (width : Nat) → BitVec width → BitVec width → Bool) :
    Option IntValue → Option IntValue → Option IntValue :=
  sameWidth fun width x y => truth (op width x y)

/-- Choose between two operands of one width by a truth value. -/
def select : Option IntValue → Option IntValue → Option IntValue → Option IntValue
  | some ⟨1, condition⟩ => sameWidth fun width x y =>
    ⟨width, if condition = 1#1 then x else y⟩
  | _ => fun _ _ => none

/-- An operation on one integer has a value. -/
@[simp] theorem unary_some (op : (width : Nat) → BitVec width → BitVec width) (width : Nat)
    (x : BitVec width) : unary op (some ⟨width, x⟩) = some ⟨width, op width x⟩ := rfl

/-- The complement of a truth value is its negation. -/
@[simp] theorem not_truth (value : Bool) :
    unary (fun _ x => ~~~x) (some (truth value)) = some (truth !value) := by
  cases value <;> rfl

/-- An operation on integers of one width has a value. -/
@[simp] theorem sameWidth_some (op : (width : Nat) → BitVec width → BitVec width → IntValue)
    (width : Nat) (x y : BitVec width) :
    sameWidth op (some ⟨width, x⟩) (some ⟨width, y⟩) = some (op width x y) := by
  -- Operands of one width are combined without a cast.
  simp [sameWidth]

/-- An operation that keeps the width has a value of that width. -/
@[simp] theorem binary_some (op : (width : Nat) → BitVec width → BitVec width → BitVec width)
    (width : Nat) (x y : BitVec width) :
    binary op (some ⟨width, x⟩) (some ⟨width, y⟩) = some ⟨width, op width x y⟩ :=
  sameWidth_some _ width x y

/-- A comparison of integers of one width has a truth value. -/
@[simp] theorem compare_some (op : (width : Nat) → BitVec width → BitVec width → Bool)
    (width : Nat) (x y : BitVec width) :
    compare op (some ⟨width, x⟩) (some ⟨width, y⟩) = some (truth (op width x y)) :=
  sameWidth_some _ width x y

/-- A selection between integers of one width has a value if its condition is a bit. -/
@[simp] theorem select_some (condition : BitVec 1) (width : Nat) (x y : BitVec width) :
    select (some ⟨1, condition⟩) (some ⟨width, x⟩) (some ⟨width, y⟩) =
      some ⟨width, if condition = 1#1 then x else y⟩ := by
  simp [select]

end IntValue

open IntValue

/-- Two's complement meaning of the operator kinds, undefined on operands of the wrong width. -/
def wilOperator : WILNodeKind → List (Option IntValue) → Option IntValue
  | .add, [x, y] => binary (fun _ x y => x + y) x y
  | .sub, [x, y] => binary (fun _ x y => x - y) x y
  | .mul, [x, y] => binary (fun _ x y => x * y) x y
  | .div, [x, y] => binary (fun _ x y => Word.div x y) x y
  | .mod, [x, y] => binary (fun _ x y => Word.mod x y) x y
  | .and, [x, y] => binary (fun _ x y => x &&& y) x y
  | .or, [x, y] => binary (fun _ x y => x ||| y) x y
  | .xor, [x, y] => binary (fun _ x y => x ^^^ y) x y
  | .shl, [x, y] => binary (fun _ x y => Word.shl x y) x y
  | .shr, [x, y] => binary (fun _ x y => Word.shr x y) x y
  | .neg, [x] => unary (fun _ x => -x) x
  | .not, [x] => unary (fun _ x => ~~~x) x
  | .abs, [x] => unary (fun _ x => x.abs) x
  | .eq, [x, y] => compare (fun _ x y => x == y) x y
  | .ne, [x, y] => compare (fun _ x y => x != y) x y
  | .lt, [x, y] => compare (fun _ x y => x.slt y) x y
  | .le, [x, y] => compare (fun _ x y => x.sle y) x y
  | .gt, [x, y] => compare (fun _ x y => y.slt x) x y
  | .ge, [x, y] => compare (fun _ x y => y.sle x) x y
  | .select, [condition, x, y] => select condition x y
  | _, _ => none

/-- Integers of the given width, with the values of the parameters and of foreign nodes. -/
def wilIntegers (width : Nat) (params : Nat → Option IntValue)
    (other : WILNode → List (Option IntValue) → Option IntValue) :
    WILInterp (Option IntValue) where
  null := none
  constInt _ value := some ⟨width, BitVec.ofInt width value⟩
  -- Doubles have no integer value.
  constFloat _ _ := none
  constBool value := some (truth value)
  param := params
  operator := wilOperator
  other := other

end Wirble
