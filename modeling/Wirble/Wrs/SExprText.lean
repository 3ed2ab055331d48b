import Wirble.Library.QuotedSexp
import Wirble.Wrs.SExpr
import Wirble.Wrs.PatternText

/-! Printing and parsing of expressions, and which of them survive both. -/

namespace Wirble

open Decimal

open QuotedSexp (Node Token)
open Sexp (isSpace isSpecial isBare Ends)

/-- The text behind a sign, if it has one. -/
def wrsUnsigned (text : List Char) : List Char := (splitSign text).2

def wrsIsInteger (text : List Char) : Bool :=
  wrsUnsigned text ≠ [] && (wrsUnsigned text).all Char.isDigit

/-- Digits and exactly one dot. -/
def wrsIsFloat (text : List Char) : Bool :=
  wrsUnsigned text ≠ [] && (wrsUnsigned text).all (fun char => char == '.' || char.isDigit) &&
    (wrsUnsigned text).count '.' == 1

section Parse

-- `strtod` and `parse_sexp` belong to the C library and to the reader library.
variable (strtod : List Char → BitVec 64) (parseSexp : List Char → Option Node)

mutual

def wrsSexprFromTree : Node → WRSSExpr
  | .atom .doubleQuoted text => .string text
  | .atom _ text =>
    if wrsIsInteger text then .number (BitVec.ofInt 64 (strtoll text).1)
    else if wrsIsFloat text then .number (strtod text)
    else .atom text
  | .list children => .list (wrsSexprsFromTrees children)

/-- The expressions of the children of a list. -/
def wrsSexprsFromTrees : List Node → List WRSSExpr
  | [] => []
  | child :: rest => wrsSexprFromTree child :: wrsSexprsFromTrees rest

end

/-- The first form of a text, which the tree wraps in parentheses before it is read. -/
def wrsFirstForm (text : List Char) : Option Node :=
  (parseSexp ("(\n".toList ++ (text ++ "\n)\n".toList))).bind fun parsed =>
    match parsed with
    | .list forms => forms.head?
    | .atom _ _ => none

def wrsSExprParse (text : List Char) : Option WRSSExpr :=
  (wrsFirstForm parseSexp text).map (wrsSexprFromTree strtod)

end Parse

mutual

def wrsStringifyExpr : WRSSExpr → List Char
  | .atom text => text
  | .string text => '"' :: (text ++ ['"'])
  -- Both members of the union are printed as an integer.
  | .number bits => decimalText bits.toInt
  | .list [] => ['(', ')']
  | .list (first :: rest) => '(' :: (wrsStringifyExpr first ++ (wrsStringifyRest rest ++ [')']))

/-- The elements of a list after the first one. -/
def wrsStringifyRest : List WRSSExpr → List Char
  | [] => []
  | element :: rest => ' ' :: (wrsStringifyExpr element ++ wrsStringifyRest rest)

end

def wrsSExprToString (expr : WRSSExpr) : List Char := wrsStringifyExpr expr

namespace WRSSExpr

mutual

/-- The tree that an expression is printed for. -/
def toNode : WRSSExpr → Node
  | atom text => .atom .bare text
  | string text => .atom .doubleQuoted text
  | number bits => .atom .bare (decimalText bits.toInt)
  | list elements => .list (toNodes elements)

/-- The trees of the elements of a list. -/
def toNodes : List WRSSExpr → List Node
  | [] => []
  | element :: rest => element.toNode :: toNodes rest

end

mutual

/-- The leaves of an expression in order, with the beginning and the end of each list. -/
def flat : WRSSExpr → List (Bool ⊕ WRSSExpr)
  | list elements => .inl true :: (flatAll elements ++ [.inl false])
  | atom text => [.inr (atom text)]
  | string text => [.inr (string text)]
  | number bits => [.inr (number bits)]

/-- The leaves of the elements of a list. -/
def flatAll : List WRSSExpr → List (Bool ⊕ WRSSExpr)
  | [] => []
  | element :: rest => element.flat ++ flatAll rest

end

end WRSSExpr

/-! Which trees an assumption about strings and bare atoms says something about. -/

section Forms

mutual

/-- Strings do not have a backslash, and other atoms have neither quotes nor semicolons and do not
begin with white space. -/
def wrsDecoded : Node → Bool
  | .atom .doubleQuoted text => !text.contains '\\'
  | .atom _ text =>
    text.head?.any (fun char => !isSpace char) && text.all fun char => !isSpecial char
  | .list children => wrsDecodedAll children

/-- All trees are decoded. -/
def wrsDecodedAll : List Node → Bool
  | [] => true
  | child :: rest => wrsDecoded child && wrsDecodedAll rest

end

mutual

/-- Strings do not have a quote, and other atoms are bare. -/
def wrsPrintable : Node → Bool
  | .atom .doubleQuoted text => !text.contains '"'
  | .atom _ text => text.all isBare
  | .list children => wrsPrintableAll children

/-- All trees are printable. -/
def wrsPrintableAll : List Node → Bool
  | [] => true
  | child :: rest => wrsPrintable child && wrsPrintableAll rest

end

end Forms

/-! Numbers. -/

/-- A text without a sign in front has all its characters behind the sign. -/
theorem wrsUnsigned_eq {text : List Char} (minus : text.head? ≠ some '-')
    (plus : text.head? ≠ some '+') : wrsUnsigned text = text := by
  unfold wrsUnsigned splitSign
  split
  · exact absurd rfl minus
  · exact absurd rfl plus
  · rfl

/-- A sign stands in front of what is behind it, if there is one. -/
theorem wrsUnsigned_cases (text : List Char) :
    text = wrsUnsigned text ∨ text = '-' :: wrsUnsigned text ∨ text = '+' :: wrsUnsigned text := by
  unfold wrsUnsigned splitSign
  split
  · exact .inr (.inl rfl)
  · exact .inr (.inr rfl)
  · exact .inl rfl

/-- The text of an integer is an integer. -/
theorem wrsIsInteger_decimalText (value : Int) : wrsIsInteger (decimalText value) = true := by
  -- What follows the sign are the digits of the absolute value.
  have digits : ∀ char ∈ Nat.toDigits 10 value.natAbs, char.isDigit = true := fun char member =>
    Nat.isDigit_of_mem_toDigits (by decide) (by decide) member
  have some : Nat.toDigits 10 value.natAbs ≠ [] := Nat.toDigits_ne_nil
  have unsigned : wrsUnsigned (decimalText value) = Nat.toDigits 10 value.natAbs := by
    rw [decimalText]
    split
    · rfl
    · -- The first digit is not a sign.
      have head : ∀ char, (Nat.toDigits 10 value.natAbs).head? = Option.some char →
          char.isDigit = true := fun char first => digits char (List.mem_of_mem_head? first)
      apply wrsUnsigned_eq
      · intro minus
        exact absurd (head '-' minus) (by decide)
      · intro plus
        exact absurd (head '+' plus) (by decide)
  rw [wrsIsInteger, unsigned, Bool.and_eq_true]
  exact ⟨decide_eq_true some, List.all_eq_true.mpr digits⟩

/-- Printing and parsing keep the bits of a number. -/
theorem strtoll_decimalText (bits : BitVec 64) :
    BitVec.ofInt 64 (strtoll (decimalText bits.toInt)).1 = bits := by
  have low : -2 ^ 63 ≤ bits.toInt := bits.le_toInt
  have high : bits.toInt < 2 ^ 63 := bits.toInt_lt
  have parsed := parseInt64_decimalText low high
  simp only [parseInt64, Option.ite_none_left_eq_some, Option.some.injEq] at parsed
  rw [parsed.2, BitVec.ofInt_toInt]

/-- A text is bare if it is behind its sign. -/
theorem all_isBare_of_unsigned {text : List Char}
    (bare : (wrsUnsigned text).all isBare = true) : text.all isBare = true := by
  rcases wrsUnsigned_cases text with same | same | same
  · rw [same]
    exact bare
  · rw [same, List.all_cons, bare]
    rfl
  · rw [same, List.all_cons, bare]
    rfl

/-- Numbers are bare. -/
theorem all_isBare_of_number {text : List Char}
    (number : wrsIsInteger text = true ∨ wrsIsFloat text = true) : text.all isBare = true := by
  have dot : isBare '.' = true := by decide
  apply all_isBare_of_unsigned
  rw [List.all_eq_true]
  intro char member
  -- Digits are bare, and so is the decimal point.
  rcases number with integer | float
  · rw [wrsIsInteger, Bool.and_eq_true, List.all_eq_true] at integer
    exact isBare_of_isDigit (integer.2 char member)
  · rw [wrsIsFloat, Bool.and_eq_true, Bool.and_eq_true, List.all_eq_true] at float
    have either := float.1.2 char member
    rw [Bool.or_eq_true, beq_iff_eq] at either
    rcases either with same | digit
    · rw [same]
      exact dot
    · exact isBare_of_isDigit digit

section Trees

variable (strtod : List Char → BitVec 64)

/-- The value of a token, or what it does to a list. -/
def wrsTokenValue : Token → Bool ⊕ WRSSExpr
  | .opening => .inl true
  | .closing => .inl false
  | .atom kind text => .inr (wrsSexprFromTree strtod (.atom kind text))

/-- An atom is a leaf. -/
theorem flat_atom (kind : QuotedSexp.AtomKind) (text : List Char) :
    (wrsSexprFromTree strtod (.atom kind text)).flat =
      [.inr (wrsSexprFromTree strtod (.atom kind text))] := by
  unfold wrsSexprFromTree
  split
  -- A string keeps its text.
  · rfl
  · rename_i number
    -- A number is parsed, and any other atom keeps its text.
    split_ifs <;> rfl
  · rename_i list
    cases list

mutual

/-- The leaves of an expression are the values of the tokens of its tree. -/
theorem flat_fromTree : ∀ node : Node,
    (wrsSexprFromTree strtod node).flat = node.tokens.map (wrsTokenValue strtod)
  | .atom kind text => flat_atom strtod kind text
  | .list children => by
    rw [wrsSexprFromTree, WRSSExpr.flat, flat_fromTrees children, Node.tokens, List.map_cons,
      List.map_append]
    rfl

/-- The values of converted trees are those of their tokens. -/
theorem flat_fromTrees : ∀ nodes : List Node,
    WRSSExpr.flatAll (wrsSexprsFromTrees strtod nodes) =
      (Node.tokensAll nodes).map (wrsTokenValue strtod)
  | [] => rfl
  | node :: rest => by
    rw [wrsSexprsFromTrees, WRSSExpr.flatAll, flat_fromTree node, flat_fromTrees rest,
      Node.tokensAll, List.map_append]

end

/-- The tree that a number is printed for has the same bits. -/
theorem fromTree_number (bits : BitVec 64) :
    wrsSexprFromTree strtod (WRSSExpr.number bits).toNode = .number bits := by
  rw [WRSSExpr.toNode, wrsSexprFromTree, if_pos (wrsIsInteger_decimalText _), strtoll_decimalText]
  nofun

/-- An atom that is no string is a number, or an atom of its text that is not a number. -/
theorem fromTree_atom_cases {kind : QuotedSexp.AtomKind} (other : kind ≠ .doubleQuoted)
    (text : List Char) :
    (∃ bits, wrsSexprFromTree strtod (.atom kind text) = .number bits) ∨
      wrsSexprFromTree strtod (.atom kind text) = .atom text ∧
        wrsIsInteger text = false ∧ wrsIsFloat text = false := by
  rw [wrsSexprFromTree]
  -- Integers are tried first, then decimal fractions.
  · split
    · exact .inl ⟨_, rfl⟩
    · split
      · exact .inl ⟨_, rfl⟩
      · rename_i integer float
        exact .inr ⟨rfl, by simpa using integer, by simpa using float⟩
  · exact other

mutual

/-- Expressions that come from trees come from the trees that they are printed for. -/
theorem fromTree_toNode : ∀ node : Node,
    wrsSexprFromTree strtod (wrsSexprFromTree strtod node).toNode = wrsSexprFromTree strtod node
  | .atom kind text => by
    -- A string is printed in quotes, and read as a string again.
    by_cases quoted : kind = .doubleQuoted
    · rw [quoted]
      rfl
    · rcases fromTree_atom_cases strtod quoted text with ⟨bits, number⟩ | ⟨atom, integer, float⟩
      -- A number is printed as one, and another atom does not look like one.
      · rw [number, fromTree_number]
      · rw [atom, WRSSExpr.toNode, wrsSexprFromTree, integer, float]
        · rfl
        · nofun
  | .list children => by
    rw [wrsSexprFromTree, WRSSExpr.toNode, wrsSexprFromTree, fromTrees_toNodes children]

/-- Converting printed trees again changes nothing. -/
theorem fromTrees_toNodes : ∀ nodes : List Node,
    wrsSexprsFromTrees strtod (WRSSExpr.toNodes (wrsSexprsFromTrees strtod nodes)) =
      wrsSexprsFromTrees strtod nodes
  | [] => rfl
  | node :: rest => by
    rw [wrsSexprsFromTrees, WRSSExpr.toNodes, wrsSexprsFromTrees, fromTree_toNode node,
      fromTrees_toNodes rest]

end

/-! What a scan makes of a printed expression. -/

/-- A space begins what is behind an element. -/
theorem ends_rest (elements : List WRSSExpr) {rest : List Char} (ends : Ends rest) :
    Ends (wrsStringifyRest elements ++ rest) := by
  cases elements with
  | nil => exact ends
  | cons element elements =>
    intro char first
    rw [wrsStringifyRest, List.cons_append, List.head?_cons] at first
    rw [← Option.some.inj first]
    rfl

/-- A closing parenthesis ends an atom. -/
theorem ends_closing (rest : List Char) : Ends (')' :: rest) := by
  intro char first
  rw [← Option.some.inj first]
  rfl

/-- The list is opened. -/
theorem scan_opening (rest : List Char) :
    QuotedSexp.scan .between ('(' :: rest) = (QuotedSexp.scan .between rest).emit .opening := rfl

/-- A closing parenthesis is scanned as one. -/
theorem scan_closing (rest : List Char) :
    QuotedSexp.scan .between (')' :: rest) = (QuotedSexp.scan .between rest).emit .closing := rfl

/-- A string is opened. -/
theorem scan_quote (rest : List Char) :
    QuotedSexp.scan .between ('"' :: rest) = QuotedSexp.scan (.quoted []) rest := rfl

/-- A number is printed as one bare atom. -/
theorem scan_number (bits : BitVec 64) {rest : List Char} (ends : Ends rest) :
    QuotedSexp.scan .between (decimalText bits.toInt ++ rest) =
      (QuotedSexp.scan .between rest).emit (.atom .bare (decimalText bits.toInt)) := by
  have bare := decimalText_bare bits.toInt
  rw [Sexp.bare, Bool.and_eq_true] at bare
  exact QuotedSexp.scan_atom (by simpa using bare.1) bare.2 ends

mutual

/-- The text of a printable tree is split into the tokens of the tree it is printed for. -/
theorem scan_stringify : ∀ {node : Node}, wrsDecoded node = true → wrsPrintable node = true →
    ∀ {rest : List Char}, Ends rest →
      QuotedSexp.scan .between (wrsStringifyExpr (wrsSexprFromTree strtod node) ++ rest) =
        (QuotedSexp.scan .between rest).emitAll (wrsSexprFromTree strtod node).toNode.tokens
  | .atom kind text, decoded, printable, rest, ends => by
    by_cases quoted : kind = .doubleQuoted
    · rw [quoted] at decoded printable ⊢
      rw [wrsDecoded, Bool.not_eq_true', List.contains_eq_mem, decide_eq_false_iff_not] at decoded
      rw [wrsPrintable, Bool.not_eq_true', List.contains_eq_mem, decide_eq_false_iff_not]
        at printable
      -- A printable string has no quote and no backslash.
      have plain : ∀ char ∈ text, char ≠ '"' ∧ char ≠ '\\' :=
        fun char member => ⟨fun same => printable (same ▸ member),
          fun same => decoded (same ▸ member)⟩
      show QuotedSexp.scan .between (('"' :: (text ++ ['"'])) ++ rest) = _
      rw [List.cons_append, scan_quote, List.append_assoc, List.singleton_append,
        QuotedSexp.scan_quoted plain]
      rfl
    -- A number and an atom are printed in their own way.
    · rcases fromTree_atom_cases strtod quoted text with ⟨bits, number⟩ | ⟨atom, -, -⟩
      · rw [number]
        exact scan_number bits ends
      · rw [atom]
        rw [wrsDecoded, Bool.and_eq_true] at decoded
        · rw [wrsPrintable] at printable
          · have some : text ≠ [] := by
              intro empty
              rw [empty] at decoded
              exact absurd decoded.1 (by decide)
            exact QuotedSexp.scan_atom some printable ends
          · exact quoted
        · exact quoted
  | .list [], _, _, rest, _ => rfl
  -- The elements are scanned one after the other between the parentheses.
  | .list (first :: later), decoded, printable, rest, ends => by
    rw [wrsDecoded, wrsDecodedAll, Bool.and_eq_true] at decoded
    rw [wrsPrintable, wrsPrintableAll, Bool.and_eq_true] at printable
    rw [wrsSexprFromTree, wrsSexprsFromTrees, wrsStringifyExpr, List.cons_append, scan_opening,
      List.append_assoc, List.append_assoc, List.singleton_append]
    -- The elements stand before the parenthesis that closes the list.
    rw [scan_stringify decoded.1 printable.1 (ends_rest _ (ends_closing rest)),
      scan_stringifyRest decoded.2 printable.2 (ends_closing rest), scan_closing, WRSSExpr.toNode,
      WRSSExpr.toNodes, Node.tokens, Node.tokensAll]
    simp [QuotedSexp.Scan.emit, QuotedSexp.Scan.emitAll]

/-- Scanning the text printed for any list of trees gives their tokens. -/
theorem scan_stringifyRest : ∀ {nodes : List Node}, wrsDecodedAll nodes = true →
    wrsPrintableAll nodes = true → ∀ {rest : List Char}, Ends rest →
      QuotedSexp.scan .between (wrsStringifyRest (wrsSexprsFromTrees strtod nodes) ++ rest) =
        (QuotedSexp.scan .between rest).emitAll
          (Node.tokensAll (WRSSExpr.toNodes (wrsSexprsFromTrees strtod nodes)))
  | [], _, _, rest, _ => rfl
  | node :: nodes, decoded, printable, rest, ends => by
    -- A space comes before each child, and the rest is scanned behind the first.
    rw [wrsDecodedAll, Bool.and_eq_true] at decoded
    rw [wrsPrintableAll, Bool.and_eq_true] at printable
    rw [wrsSexprsFromTrees, wrsStringifyRest, List.cons_append, QuotedSexp.scan_space rfl,
      List.append_assoc, scan_stringify decoded.1 printable.1 (ends_rest _ ends),
      scan_stringifyRest decoded.2 printable.2 ends, WRSSExpr.toNodes, Node.tokensAll,
      QuotedSexp.Scan.emitAll_append]

end

/-- The values that the scan of a text gives. -/
def scannedValues (text : List Char) : List (Bool ⊕ WRSSExpr) :=
  (QuotedSexp.scan .between text).tokens.map (wrsTokenValue strtod)

/-- Printable trees are scanned as their leaves. -/
theorem scannedValues_stringify {node : Node} (decoded : wrsDecoded node = true)
    (printable : wrsPrintable node = true) {rest : List Char} (ends : Ends rest) :
    scannedValues strtod (wrsStringifyExpr (wrsSexprFromTree strtod node) ++ rest) =
      (wrsSexprFromTree strtod node).flat ++ scannedValues strtod rest := by
  -- The tree that the expression is printed for has the same leaves.
  have leaves := flat_fromTree strtod (wrsSexprFromTree strtod node).toNode
  rw [fromTree_toNode] at leaves
  rw [scannedValues, scan_stringify strtod decoded printable ends, leaves]
  exact List.map_append

/-- A string with a quote is read up to the quote. -/
theorem diverges_string {text : List Char} (decoded : '\\' ∉ text) (quote : '"' ∈ text)
    (rest : List Char) (more : List (Bool ⊕ WRSSExpr)) :
    QuotedSexp.Diverges (scannedValues strtod (wrsStringifyExpr (.string text) ++ rest))
      (.inr (.string text) :: more) := by
  -- The scanner ends the string at its first quote.
  obtain ⟨front, back, split, fresh⟩ := List.eq_append_cons_of_mem quote
  have plain : ∀ char ∈ front, char ≠ '"' ∧ char ≠ '\\' := by
    intro char member
    refine ⟨fun same => fresh (same ▸ member), fun same => decoded ?_⟩
    rw [split, ← same]
    exact List.mem_append_left _ member
  have shorter : front ≠ text := by
    intro same
    have lengths := congrArg List.length split
    rw [List.length_append, List.length_cons, same] at lengths
    omega
  -- What is read is the part in front of that quote.
  have scanned : scannedValues strtod (wrsStringifyExpr (.string text) ++ rest) =
      .inr (.string front) :: scannedValues strtod (back ++ '"' :: rest) := by
    rw [wrsStringifyExpr, List.cons_append, List.append_assoc, split, List.append_assoc,
      List.cons_append, List.singleton_append, scannedValues, scan_quote,
      QuotedSexp.scan_quoted plain]
    rfl
  rw [scanned]
  apply QuotedSexp.diverges_head
  simpa using shorter

/-- An atom with a delimiter is not read as one atom. -/
theorem diverges_atom {text : List Char} (head : (text.head?.any fun char => !isSpace char) = true)
    (plain : (text.all fun char => !isSpecial char) = true) (delimited : text.all isBare = false)
    (rest : List Char) (more : List (Bool ⊕ WRSSExpr)) :
    QuotedSexp.Diverges (scannedValues strtod (text ++ rest)) (.inr (.atom text) :: more) := by
  have split : text.takeWhile isBare ++ text.dropWhile isBare = text :=
    List.takeWhile_append_dropWhile
  have word : (text.takeWhile isBare).all isBare = true := List.all_takeWhile
  cases after : text.dropWhile isBare with
  | nil =>
    have bare := List.all_eq_true.mpr (List.dropWhile_eq_nil_iff.mp after)
    rw [delimited] at bare
    cases bare
  | cons char back =>
    -- The delimiter stands in the text, and ends the part in front of it.
    have member : char ∈ text := by
      rw [← split, after]
      exact List.mem_append_right _ List.mem_cons_self
    have notBare : isBare char = false := by
      have dropped := List.head?_dropWhile_not isBare text
      rw [after] at dropped
      simpa using dropped
    have ends : Ends (char :: (back ++ rest)) := by
      intro first same
      rw [← Option.some.inj same]
      have special : isSpecial char = false := by
        simpa using List.all_eq_true.mp plain char member
      simpa [isBare, special] using notBare
    by_cases empty : text.takeWhile isBare = []
    · -- The atom begins with a parenthesis.
      have whole : text = char :: back := by
        rw [← split, after, empty, List.nil_append]
      have space : isSpace char = false := by
        rw [whole] at head
        simpa using head
      have delimiter := ends char rfl
      simp only [Sexp.isDelimiter, space, Bool.or_false, Bool.or_eq_true,
        decide_eq_true_eq] at delimiter
      -- Either parenthesis is a token of its own.
      rcases delimiter with opening | closing
      · have scanned : scannedValues strtod (text ++ rest) =
            .inl true :: scannedValues strtod (back ++ rest) := by
          rw [whole, opening]
          rfl
        rw [scanned]
        exact QuotedSexp.diverges_head Sum.inl_ne_inr
      · have scanned : scannedValues strtod (text ++ rest) =
            .inl false :: scannedValues strtod (back ++ rest) := by
          rw [whole, closing]
          rfl
        rw [scanned]
        exact QuotedSexp.diverges_head Sum.inl_ne_inr
    · -- The atom ends where the delimiter stands.
      have scanned : scannedValues strtod (text ++ rest) =
          .inr (wrsSexprFromTree strtod (.atom .bare (text.takeWhile isBare))) ::
            scannedValues strtod (char :: (back ++ rest)) := by
        rw [scannedValues]
        conv_lhs => rw [← split]
        rw [after, List.append_assoc, List.cons_append, QuotedSexp.scan_atom empty word ends]
        rfl
      rw [scanned]
      apply QuotedSexp.diverges_head
      -- The part is a number, or an atom without the delimiter.
      intro same
      have value := Sum.inr.inj same
      rcases fromTree_atom_cases strtod (show QuotedSexp.AtomKind.bare ≠ .doubleQuoted by decide)
        (text.takeWhile isBare) with ⟨bits, number⟩ | ⟨atom, -, -⟩
      · rw [number] at value
        cases value
      · rw [atom] at value
        rw [WRSSExpr.atom.inj value, delimited] at word
        cases word

mutual

/-- The scan of a text whose tree is not printable differs from the tree somewhere. -/
theorem diverges_tree : ∀ {node : Node}, wrsDecoded node = true → wrsPrintable node = false →
    ∀ {rest : List Char}, Ends rest → ∀ more : List (Bool ⊕ WRSSExpr),
      QuotedSexp.Diverges
        (scannedValues strtod (wrsStringifyExpr (wrsSexprFromTree strtod node) ++ rest))
        ((wrsSexprFromTree strtod node).flat ++ more)
  | .atom kind text, decoded, broken, rest, ends, more => by
    by_cases quoted : kind = .doubleQuoted
    · rw [quoted] at decoded broken ⊢
      rw [wrsDecoded, Bool.not_eq_true', List.contains_eq_mem, decide_eq_false_iff_not] at decoded
      rw [wrsPrintable, Bool.not_eq_false', List.contains_eq_mem, decide_eq_true_iff] at broken
      exact diverges_string strtod decoded broken rest more
    · rw [wrsPrintable] at broken
      · rw [wrsDecoded, Bool.and_eq_true] at decoded
        · -- A text that is not bare is not a number.
          rcases fromTree_atom_cases strtod quoted text with ⟨bits, number⟩ | ⟨atom, -, -⟩
          · exfalso
            rw [wrsSexprFromTree] at number
            · split_ifs at number with integer float
              · rw [all_isBare_of_number (.inl integer)] at broken
                cases broken
              · rw [all_isBare_of_number (.inr float)] at broken
                cases broken
            · exact quoted
          · rw [atom]
            exact diverges_atom strtod decoded.1 decoded.2 broken rest more
        · exact quoted
      · exact quoted
  -- A list that is not printable has an element that is not.
  | .list children, decoded, broken, rest, ends, more => by
    rw [wrsDecoded] at decoded
    rw [wrsPrintable] at broken
    cases children with
    | nil => cases broken
    | cons first later =>
      rw [wrsDecodedAll, Bool.and_eq_true] at decoded
      rw [wrsPrintableAll, Bool.and_eq_false_iff] at broken
      have text : wrsStringifyExpr (wrsSexprFromTree strtod (.list (first :: later))) ++ rest =
          '(' :: (wrsStringifyExpr (wrsSexprFromTree strtod first) ++
            (wrsStringifyRest (wrsSexprsFromTrees strtod later) ++ ')' :: rest)) := by
        rw [wrsSexprFromTree, wrsSexprsFromTrees, wrsStringifyExpr]
        simp
      have leaves : (wrsSexprFromTree strtod (.list (first :: later))).flat ++ more =
          [.inl true] ++ ((wrsSexprFromTree strtod first).flat ++
            (WRSSExpr.flatAll (wrsSexprsFromTrees strtod later) ++ .inl false :: more)) := by
        rw [wrsSexprFromTree, wrsSexprsFromTrees, WRSSExpr.flat, WRSSExpr.flatAll]
        simp
      -- Both sides begin with the opening parenthesis.
      have scanned : scannedValues strtod (wrsStringifyExpr (wrsSexprFromTree strtod
          (.list (first :: later))) ++ rest) = [.inl true] ++ scannedValues strtod
            (wrsStringifyExpr (wrsSexprFromTree strtod first) ++
              (wrsStringifyRest (wrsSexprsFromTrees strtod later) ++ ')' :: rest)) := by
        rw [text]
        rfl
      rw [scanned, leaves]
      apply QuotedSexp.Diverges.append_left
      -- The first element differs, or else a later one does.
      by_cases printable : wrsPrintable first = true
      · have others := broken.resolve_left (by simp [printable])
        have front : scannedValues strtod (wrsStringifyExpr (wrsSexprFromTree strtod first) ++
            (wrsStringifyRest (wrsSexprsFromTrees strtod later) ++ ')' :: rest)) =
              (wrsSexprFromTree strtod first).flat ++ scannedValues strtod
                (wrsStringifyRest (wrsSexprsFromTrees strtod later) ++ ')' :: rest) :=
          scannedValues_stringify strtod decoded.1 printable (ends_rest _ (ends_closing rest))
        rw [front]
        apply QuotedSexp.Diverges.append_left
        exact diverges_trees decoded.2 others (ends_closing rest) _
      · exact diverges_tree decoded.1 (by simpa using printable)
          (ends_rest _ (ends_closing rest)) _

/-- What is printed for a list that cannot be printed scans differently. -/
theorem diverges_trees : ∀ {nodes : List Node}, wrsDecodedAll nodes = true →
    wrsPrintableAll nodes = false → ∀ {rest : List Char}, Ends rest →
      ∀ more : List (Bool ⊕ WRSSExpr), QuotedSexp.Diverges
        (scannedValues strtod (wrsStringifyRest (wrsSexprsFromTrees strtod nodes) ++ rest))
        (WRSSExpr.flatAll (wrsSexprsFromTrees strtod nodes) ++ more)
  | [], _, broken, _, _, _ => by cases broken
  | node :: nodes, decoded, broken, rest, ends, more => by
    rw [wrsDecodedAll, Bool.and_eq_true] at decoded
    rw [wrsPrintableAll, Bool.and_eq_false_iff] at broken
    have text : scannedValues strtod
        (wrsStringifyRest (wrsSexprsFromTrees strtod (node :: nodes)) ++ rest) =
          scannedValues strtod (wrsStringifyExpr (wrsSexprFromTree strtod node) ++
            (wrsStringifyRest (wrsSexprsFromTrees strtod nodes) ++ rest)) := by
      rw [wrsSexprsFromTrees, wrsStringifyRest, List.cons_append, scannedValues,
        QuotedSexp.scan_space rfl, List.append_assoc]
      rfl
    rw [text, wrsSexprsFromTrees, WRSSExpr.flatAll, List.append_assoc]
    -- The first element that is not printable is where the texts differ.
    by_cases printable : wrsPrintable node = true
    · rw [scannedValues_stringify strtod decoded.1 printable (ends_rest _ ends)]
      apply QuotedSexp.Diverges.append_left
      exact diverges_trees decoded.2 (broken.resolve_left (by simp [printable])) ends more
    · exact diverges_tree decoded.1 (by simpa using printable) (ends_rest _ ends) _

end

end Trees

section RoundTrip

variable {strtod : List Char → BitVec 64} {parseSexp : List Char → Option Node}

/-- The scan of a text that the tree wraps. -/
theorem scan_wrapped (text : List Char) :
    QuotedSexp.scan .between ("(\n".toList ++ (text ++ "\n)\n".toList)) =
      (QuotedSexp.scan .between (text ++ "\n)\n".toList)).emit .opening := rfl

/-- The end of the wrapper ends an atom. -/
theorem ends_wrapped : Ends "\n)\n".toList := by
  intro char first
  rw [← Option.some.inj first]
  rfl

/-- What is printed for a printable form is read and parsed back. -/
theorem wrsSExprParse_toString {form : Node} (usual : QuotedSexp.UsualReader parseSexp)
    (decoded : wrsDecoded form = true) (printable : wrsPrintable form = true) :
    wrsSExprParse strtod parseSexp (wrsSExprToString (wrsSexprFromTree strtod form)) =
      some (wrsSexprFromTree strtod form) := by
  -- The printed form stands inside the parentheses that the parser adds.
  have scanned := scan_stringify strtod decoded printable ends_wrapped
  have last : QuotedSexp.scan .between "\n)\n".toList = ⟨[.closing], true⟩ := rfl
  have read := usual.reads ("(\n".toList ++
      (wrsStringifyExpr (wrsSexprFromTree strtod form) ++ "\n)\n".toList))
    (.list [(wrsSexprFromTree strtod form).toNode]) (by
      rw [scan_wrapped, scanned, last, Node.tokens, Node.tokensAll, Node.tokensAll, List.append_nil]
      rfl)
  rw [wrsSExprParse, wrsFirstForm, wrsSExprToString, read]
  exact congrArg some (fromTree_toNode strtod form)

/-- What is printed for another form is not parsed back. -/
theorem not_wrsSExprParse_toString {form : Node} (usual : QuotedSexp.UsualReader parseSexp)
    (decoded : wrsDecoded form = true) (broken : wrsPrintable form = false) :
    wrsSExprParse strtod parseSexp (wrsSExprToString (wrsSexprFromTree strtod form)) ≠
      some (wrsSexprFromTree strtod form) := by
  intro parsed
  obtain ⟨again, first, same⟩ := Option.map_eq_some_iff.mp parsed
  obtain ⟨root, read, head⟩ := Option.bind_eq_some_iff.mp first
  cases root with
  | atom kind text => cases head
  | list forms =>
    obtain ⟨later, split⟩ : ∃ later, forms = again :: later := List.head?_eq_some_iff.mp head
    -- The reader agrees with the scan, which differs from what it would have to return.
    have diverges := diverges_tree strtod decoded broken ends_wrapped
      ((Node.tokensAll later ++ [Token.closing]).map (wrsTokenValue strtod))
    apply (diverges.append_left [.inl true]).apart
    -- The values are those of the tokens, behind the same opening.
    have values : [.inl true] ++ ((wrsSexprFromTree strtod form).flat ++
        (Node.tokensAll later ++ [Token.closing]).map (wrsTokenValue strtod)) =
          (Node.list forms).tokens.map (wrsTokenValue strtod) := by
      rw [← same, flat_fromTree, split, Node.tokens, Node.tokensAll]
      simp [wrsTokenValue]
    have scanned : [.inl true] ++ scannedValues strtod
        (wrsStringifyExpr (wrsSexprFromTree strtod form) ++ "\n)\n".toList) =
          (QuotedSexp.scan .between ("(\n".toList ++ (wrsStringifyExpr
            (wrsSexprFromTree strtod form) ++ "\n)\n".toList))).tokens.map
              (wrsTokenValue strtod) := rfl
    rw [values, scanned]
    exact (usual.inOrder _ _ read).imp (·.map _) (·.map _)

/-- Parsing a text and printing the result gives a text that is parsed to the same expression,
exactly if the form that the reader finds in the text is printable. -/
theorem wrsSExprParse_prints_iff (usual : QuotedSexp.UsualReader parseSexp) (text : List Char)
    (decoded : ∀ form, wrsFirstForm parseSexp text = some form → wrsDecoded form = true) :
    (∀ expr, wrsSExprParse strtod parseSexp text = some expr →
        wrsSExprParse strtod parseSexp (wrsSExprToString expr) = some expr) ↔
      ∀ form, wrsFirstForm parseSexp text = some form → wrsPrintable form = true := by
  constructor
  · intro inverse form first
    -- A form that cannot be printed would be read back as something else.
    by_contra broken
    apply not_wrsSExprParse_toString usual (decoded form first) (by simpa using broken)
    exact inverse (wrsSexprFromTree strtod form) (by rw [wrsSExprParse, first]; rfl)
  · intro printable expr parsed
    -- The text is parsed by way of the form that the reader finds.
    obtain ⟨form, first, same⟩ := Option.map_eq_some_iff.mp parsed
    rw [← same]
    exact wrsSExprParse_toString usual (decoded form first) (printable form first)

/-- A list with a string that has spaces is parsed back. -/
theorem wrsSExprParse_prints_spaces :
    let text := ['(', 'f', ' ', '"', 'a', ' ', 'b', '"', ' ', '-', '7', ')']
    ∀ expr, wrsSExprParse (fun _ => 0) QuotedSexp.read text = some expr →
      wrsSExprParse (fun _ => 0) QuotedSexp.read (wrsSExprToString expr) = some expr := by
  intro text
  -- The reader finds the form, whose string is quoted.
  have read : wrsFirstForm QuotedSexp.read text = some (.list [.atom .bare ['f'],
      .atom .doubleQuoted ['a', ' ', 'b'], .atom .bare ['-', '7']]) := rfl
  refine (wrsSExprParse_prints_iff QuotedSexp.usualReader_read text ?_).mpr ?_
  · intro form first
    rw [read] at first
    rw [← Option.some.inj first]
    decide
  · intro form first
    rw [read] at first
    rw [← Option.some.inj first]
    decide

/-- A string with an escaped quote is printed without the backslash. -/
theorem wrsSExprParse_not_inverse :
    ¬ ∀ (strtod : List Char → BitVec 64) (parseSexp : List Char → Option Node),
      QuotedSexp.UsualReader parseSexp → ∀ (text : List Char) (expr : WRSSExpr),
        wrsSExprParse strtod parseSexp text = some expr →
          wrsSExprParse strtod parseSexp (wrsSExprToString expr) = some expr := by
  intro claimed
  -- The backslash is taken off when the text is read, and is not put back.
  have parsed : wrsSExprParse (fun _ => 0) QuotedSexp.read ['"', 'a', '\\', '"', 'b', '"'] =
      some (wrsSexprFromTree (fun _ => 0) (.atom .doubleQuoted ['a', '"', 'b'])) := rfl
  apply not_wrsSExprParse_toString QuotedSexp.usualReader_read _ _
    (claimed _ _ QuotedSexp.usualReader_read _ _ parsed)
  · decide
  · decide

end RoundTrip

end Wirble
