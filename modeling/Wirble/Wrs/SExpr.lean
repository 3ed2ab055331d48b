import Mathlib.Logic.Basic

/-! Values of the expressions that rule files and their guards are made of. -/

namespace Wirble

/-- An expression. The union of a number holds an integer or the bits of a decimal, and nothing
tells which of the two it is. -/
inductive WRSSExpr where
  | atom (text : List Char)
  | list (elements : List WRSSExpr)
  | string (text : List Char)
  | number (bits : BitVec 64)

end Wirble
