import Wirble.Wrs.StdRewrite
import Wirble.Library.Term

/-! WIL graphs unfolded to terms, and the built-in rules as a relation between terms. -/

namespace Wirble

open Term

/-- What a node contributes to the term it denotes. -/
inductive TermLabel where
  /-- The null pointer in an input slot. -/
  | null
  | constInt (type : WILType) (value : Int)
  | constFloat (type : WILType) (value : DoubleBits)
  | constBool (value : Bool)
  | param (index : Nat)
  | op (kind : WILNodeKind)
  | other (node : WILNode)
  deriving DecidableEq

/-- A finite WIL term, which stands for all graphs that share its parts in some way. -/
abbrev WILTerm := Term TermLabel

namespace WILTerm

/-- An integer constant. -/
@[match_pattern] abbrev int (type : WILType) (value : Int) : WILTerm := .app (.constInt type value) []

/-- A truth constant. -/
@[match_pattern] abbrev truth (value : Bool) : WILTerm := .app (.constBool value) []

/-- An operator with one operand. -/
@[match_pattern] abbrev unary (kind : WILNodeKind) (x : WILTerm) : WILTerm := .app (.op kind) [x]

/-- An operator with two operands. -/
@[match_pattern] abbrev binary (kind : WILNodeKind) (x y : WILTerm) : WILTerm :=
  .app (.op kind) [x, y]

/-- A choice between two terms. -/
@[match_pattern] abbrev select (condition x y : WILTerm) : WILTerm :=
  .app (.op .select) [condition, x, y]

end WILTerm

open WILTerm

section Instances

variable (assign : String → WILTerm)

mutual

/-- The term is the pattern with its variables replaced. Constant patterns ignore types, and a
repeated variable stands for structurally equal terms. -/
def Instance : WILPattern → WILTerm → Prop
  | .var (some name), term => term = assign name
  | .constInt value, term => ∃ type, term = int type value
  | .constBool value, term => term = truth value
  | .node kind inputs, term => ∃ args, term = .app (.op kind) args ∧ InstanceList inputs args
  | _, _ => False

/-- The terms are the patterns with their variables replaced, one for one. -/
def InstanceList : List WILPattern → List WILTerm → Prop
  | [], [] => True
  | pattern :: patterns, term :: terms => Instance pattern term ∧ InstanceList patterns terms
  | _, _ => False

end

end Instances

/-- The instances of the built-in rules, one constructor for each rule in the order of the files. -/
inductive Redex : WILTerm → WILTerm → Prop
  | addZeroRight (x : WILTerm) (type : WILType) : Redex (binary .add x (int type 0)) x
  | addZeroLeft (x : WILTerm) (type : WILType) : Redex (binary .add (int type 0) x) x
  | subZero (x : WILTerm) (type : WILType) : Redex (binary .sub x (int type 0)) x
  | subZeroLeft (x : WILTerm) (type : WILType) : Redex (binary .sub (int type 0) x) (unary .neg x)
  | subSelf (x : WILTerm) : Redex (binary .sub x x) (int .i32 0)
  | mulOneRight (x : WILTerm) (type : WILType) : Redex (binary .mul x (int type 1)) x
  | mulOneLeft (x : WILTerm) (type : WILType) : Redex (binary .mul (int type 1) x) x
  | mulZeroRight (x : WILTerm) (type : WILType) : Redex (binary .mul x (int type 0)) (int .i32 0)
  | mulZeroLeft (x : WILTerm) (type : WILType) : Redex (binary .mul (int type 0) x) (int .i32 0)
  | divOne (x : WILTerm) (type : WILType) : Redex (binary .div x (int type 1)) x
  | divSelf (x : WILTerm) : Redex (binary .div x x) (int .i32 1)
  | modOne (x : WILTerm) (type : WILType) : Redex (binary .mod x (int type 1)) (int .i32 0)
  | negZero (type : WILType) : Redex (unary .neg (int type 0)) (int .i32 0)
  | absZero (type : WILType) : Redex (unary .abs (int type 0)) (int .i32 0)
  | shlZero (x : WILTerm) (type : WILType) : Redex (binary .shl x (int type 0)) x
  | shrZero (x : WILTerm) (type : WILType) : Redex (binary .shr x (int type 0)) x
  | addSelf (x : WILTerm) : Redex (binary .add x x) (binary .mul x (int .i32 2))
  | andTrueRight (x : WILTerm) : Redex (binary .and x (truth true)) x
  | andTrueLeft (x : WILTerm) : Redex (binary .and (truth true) x) x
  | andFalseRight (x : WILTerm) : Redex (binary .and x (truth false)) (truth false)
  | andFalseLeft (x : WILTerm) : Redex (binary .and (truth false) x) (truth false)
  | andIdempotent (x : WILTerm) : Redex (binary .and x x) x
  | orFalseRight (x : WILTerm) : Redex (binary .or x (truth false)) x
  | orFalseLeft (x : WILTerm) : Redex (binary .or (truth false) x) x
  | orTrueRight (x : WILTerm) : Redex (binary .or x (truth true)) (truth true)
  | orTrueLeft (x : WILTerm) : Redex (binary .or (truth true) x) (truth true)
  | orIdempotent (x : WILTerm) : Redex (binary .or x x) x
  | xorFalseRight (x : WILTerm) : Redex (binary .xor x (truth false)) x
  | xorFalseLeft (x : WILTerm) : Redex (binary .xor (truth false) x) x
  | notNot (x : WILTerm) : Redex (unary .not (unary .not x)) x
  | notTrue : Redex (unary .not (truth true)) (truth false)
  | notFalse : Redex (unary .not (truth false)) (truth true)
  | eqSelf (x : WILTerm) : Redex (binary .eq x x) (truth true)
  | neSelf (x : WILTerm) : Redex (binary .ne x x) (truth false)
  | selectTrue (x y : WILTerm) : Redex (select (truth true) x y) x
  | selectFalse (x y : WILTerm) : Redex (select (truth false) x y) y
  | selectSameBranches (condition x : WILTerm) : Redex (select condition x x) x
  | negNeg (x : WILTerm) : Redex (unary .neg (unary .neg x)) x
  | absNeg (x : WILTerm) : Redex (unary .abs (unary .neg x)) (unary .abs x)
  | addNegRight (x y : WILTerm) : Redex (binary .add x (unary .neg y)) (binary .sub x y)
  | addNegLeft (x y : WILTerm) : Redex (binary .add (unary .neg y) x) (binary .sub x y)
  | subNegRight (x y : WILTerm) : Redex (binary .sub x (unary .neg y)) (binary .add x y)
  | mulNegOneRight (x : WILTerm) (type : WILType) :
    Redex (binary .mul x (int type (-1))) (unary .neg x)
  | mulNegOneLeft (x : WILTerm) (type : WILType) :
    Redex (binary .mul (int type (-1)) x) (unary .neg x)
  | notEq (x y : WILTerm) : Redex (unary .not (binary .eq x y)) (binary .ne x y)
  | notNe (x y : WILTerm) : Redex (unary .not (binary .ne x y)) (binary .eq x y)
  | notLt (x y : WILTerm) : Redex (unary .not (binary .lt x y)) (binary .ge x y)
  | notLe (x y : WILTerm) : Redex (unary .not (binary .le x y)) (binary .gt x y)
  | notGt (x y : WILTerm) : Redex (unary .not (binary .gt x y)) (binary .le x y)
  | notGe (x y : WILTerm) : Redex (unary .not (binary .ge x y)) (binary .lt x y)
  | selectNotCond (condition x y : WILTerm) :
    Redex (select (unary .not condition) x y) (select condition y x)

section Inversion

variable {assign : String → WILTerm} {pattern : WILPattern} {patterns : List WILPattern}
  {name : String} {kind : WILNodeKind} {term : WILTerm} {terms : List WILTerm}

end Inversion

end Wirble
