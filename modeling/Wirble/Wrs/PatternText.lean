import Wirble.Library.Decimal
import Wirble.Wrs.Pattern

/-! Printing patterns and loading them from s-expressions. -/

namespace Wirble

open Decimal

/-- The kinds in the order of the enumeration. -/
def wilNodeKinds : List WILNodeKind :=
  [.constInt, .constFloat, .constBool, .undef, .param, .add, .sub, .mul, .div, .mod, .and, .or,
    .xor, .shl, .shr, .neg, .not, .abs, .eq, .ne, .lt, .le, .gt, .ge, .load, .store, .alloca,
    .start, .region, .ifNode, .loop, .returnNode, .jump, .proj, .phi, .call, .callIndirect, .cast,
    .bitcast, .extract, .insert, .select]

def wilNodeKindStr : WILNodeKind → String
  | .constInt => "const_int"
  | .constFloat => "const_float"
  | .constBool => "const_bool"
  | .undef => "undef"
  | .param => "param"
  | .add => "add"
  | .sub => "sub"
  | .mul => "mul"
  | .div => "div"
  | .mod => "mod"
  | .and => "and"
  | .or => "or"
  | .xor => "xor"
  | .shl => "shl"
  | .shr => "shr"
  | .neg => "neg"
  | .not => "not"
  | .abs => "abs"
  | .eq => "eq"
  | .ne => "ne"
  | .lt => "lt"
  | .le => "le"
  | .gt => "gt"
  | .ge => "ge"
  | .load => "load"
  | .store => "store"
  | .alloca => "alloca"
  | .start => "start"
  | .region => "region"
  | .ifNode => "if"
  | .loop => "loop"
  | .returnNode => "return"
  | .jump => "jump"
  | .proj => "proj"
  | .phi => "phi"
  | .call => "call"
  | .callIndirect => "call_indirect"
  | .cast => "cast"
  | .bitcast => "bitcast"
  | .extract => "extract"
  | .insert => "insert"
  | .select => "select"

/-- The first kind with this name. -/
def wrsParseNodeKindSymbol (symbol : List Char) : Option WILNodeKind :=
  wilNodeKinds.find? fun kind => (wilNodeKindStr kind).toList = symbol

/-- The table of node kinds is complete. -/
theorem mem_wilNodeKinds (kind : WILNodeKind) : kind ∈ wilNodeKinds := by
  cases kind <;> simp [wilNodeKinds]

/-- Different kinds have different names. -/
theorem wilNodeKindStr_injective {left right : WILNodeKind}
    (same : wilNodeKindStr left = wilNodeKindStr right) : left = right := by
  have all : ∀ left ∈ wilNodeKinds, ∀ right ∈ wilNodeKinds,
      wilNodeKindStr left = wilNodeKindStr right → left = right := by decide +kernel
  exact all left (mem_wilNodeKinds left) right (mem_wilNodeKinds right) same

/-- Every kind is read back from its name. -/
theorem wrsParseNodeKindSymbol_str (kind : WILNodeKind) :
    wrsParseNodeKindSymbol (wilNodeKindStr kind).toList = some kind := by
  cases found : wrsParseNodeKindSymbol (wilNodeKindStr kind).toList with
  | none =>
    have missing := List.find?_eq_none.mp found kind (mem_wilNodeKinds kind)
    simp at missing
  | some other =>
    -- A kind of the same name is the kind itself.
    have same : (wilNodeKindStr other).toList = (wilNodeKindStr kind).toList := by
      simpa using List.find?_some found
    rw [wilNodeKindStr_injective (String.toList_inj.mp same)]

/-- The names of kinds are bare, and none of them is read as another form. -/
theorem wilNodeKindStr_bare (kind : WILNodeKind) :
    (Sexp.atom (wilNodeKindStr kind).toList).bare = true ∧
      wilNodeKindStr kind ≠ "seq" ∧ wilNodeKindStr kind ≠ "refine" ∧
        wilNodeKindStr kind ≠ "pred" := by
  -- The kinds are looked through one by one.
  have all : ∀ kind ∈ wilNodeKinds, (Sexp.atom (wilNodeKindStr kind).toList).bare = true ∧
      wilNodeKindStr kind ≠ "seq" ∧ wilNodeKindStr kind ≠ "refine" ∧
        wilNodeKindStr kind ≠ "pred" := by decide +kernel
  exact all kind (mem_wilNodeKinds kind)

/-! Numbers. -/

/-- A number that fills the whole text. -/
def wrsParseInt64 (text : List Char) : Option Int := parseInt64 text

/-! Printing. -/

section Print

-- The conversion `%g` of the C library, which no pattern of a rule file needs.
variable (doubleText : DoubleBits → List Char)

/-- `wrs_append_text` appends nothing for a null text. -/
def nameText (name : Option String) : List Char := name.elim [] String.toList

mutual

/-- The text that `wrs_pattern_to_buffer` appends. -/
def wrsPatternToBuffer : WILPattern → List Char
  | .null => ['<', 'n', 'u', 'l', 'l', '>']
  | .var name => '?' :: nameText name
  | .wildcard => ['_']
  | .constInt value => decimalText value
  | .constFloat value => doubleText value
  | .constBool value => if value then ['t', 'r', 'u', 'e'] else ['f', 'a', 'l', 's', 'e']
  | .node kind inputs =>
    '(' :: ((wilNodeKindStr kind).toList ++ (inputsToBuffer inputs ++ [')']))
  | .sequence name element =>
    ['(', 's', 'e', 'q', ' ', '?'] ++
      (nameText name ++ (' ' :: (wrsPatternToBuffer element ++ [')'])))
  | .refinement base =>
    ['(', 'r', 'e', 'f', 'i', 'n', 'e', ' '] ++ (wrsPatternToBuffer base ++ [')'])
  | .predicate _ => ['(', 'p', 'r', 'e', 'd', ')']

/-- The inputs of a node pattern, each after a space. -/
def inputsToBuffer : List WILPattern → List Char
  | [] => []
  | input :: rest => ' ' :: (wrsPatternToBuffer input ++ inputsToBuffer rest)

end

/-- `wilPatternToString`. -/
def wilPatternToString (pat : WILPattern) : List Char := wrsPatternToBuffer doubleText pat

end Print

/-! Loading. -/

/-- A truth value or an integer, if the atom is one. -/
def wrsConstPatternFromAtom (text : List Char) : Option WILPattern :=
  if text = "true".toList ∨ text = "false".toList then some (.constBool (text = "true".toList))
  else (wrsParseInt64 text).map .constInt

/-- The node is an atom of this text. -/
def wrsAtomIs (node : Option Sexp) (text : String) : Bool :=
  match node with
  | some (.atom own) => own = text.toList
  | _ => false

/-- The text of a node, which lists and missing nodes do not have. -/
def sexpText : Option Sexp → Option (List Char)
  | some (.atom text) => some text
  | _ => none

/-- A list, together with the patterns of its children. A missing child gives the null pattern. -/
def wrsPatternFromList (children : List Sexp) (patterns : List WILPattern) : WILPattern :=
  let head := children[0]?
  if wrsAtomIs head "seq" then
    let varName := (sexpText children[1]?).map fun text =>
      if text.head? = some '?' then text.tail else text
    .sequence (varName.map String.ofList) (patterns[2]?.getD .null)
  else if wrsAtomIs head "refine" then .refinement (patterns[1]?.getD .null)
  else if wrsAtomIs head "pred" then .wildcard
  else
    match (sexpText head).bind wrsParseNodeKindSymbol with
    | none => .null
    | some kind => .node kind (patterns.drop 1)

mutual

/-- The pattern of a node of the tree. -/
def wrsPatternFromSexpNode : Sexp → WILPattern
  | .atom text =>
    if text = ['_'] then .wildcard
    else if text.head? = some '?' then .var (some (String.ofList text.tail))
    else
      match wrsConstPatternFromAtom text with
      | some constant => constant
      | none =>
        match wrsParseNodeKindSymbol text with
        | some kind => .node kind []
        | none => .null
  | .list children => wrsPatternFromList children (wrsPatternsFromSexpNodes children)

/-- The patterns of the children of a list. -/
def wrsPatternsFromSexpNodes : List Sexp → List WILPattern
  | [] => []
  | child :: rest => wrsPatternFromSexpNode child :: wrsPatternsFromSexpNodes rest

end

/-- The forms of a text: `wirble_sexp_tree_parse_cstr` wraps the text in parentheses and keeps the
elements of the list that the library reads. -/
def wirbleSexpTreeParseCstr (parseSexp : List Char → Option Sexp) (text : List Char) :
    Option (List Sexp) :=
  (parseSexp ("(\n".toList ++ (text ++ "\n)\n".toList))).map fun parsed =>
    match parsed with
    | .list forms => forms
    | .atom _ => []

/-! Patterns are read back. -/

namespace WILPattern

mutual

/-- Every sequence pattern has a name. -/
def namedSequences : WILPattern → Bool
  | sequence name element => name.isSome && element.namedSequences
  | node _ inputs => namedSequencesAll inputs
  | refinement base => base.namedSequences
  | _ => true

/-- Every sequence pattern of the list has a name. -/
def namedSequencesAll : List WILPattern → Bool
  | [] => true
  | pattern :: rest => pattern.namedSequences && namedSequencesAll rest

end

mutual

/-- What the loader builds: names are bare, numbers are in range, and there are neither doubles nor
predicates. -/
def loaded : WILPattern → Bool
  | null | wildcard | constBool _ => true
  | var name => name.any fun name => name.toList.all Sexp.isBare
  | constInt value => -2 ^ 63 ≤ value && value < 2 ^ 63
  | sequence name element => (name.any fun name => name.toList.all Sexp.isBare) && element.loaded
  | node _ inputs => loadedAll inputs
  | refinement base => base.loaded
  | constFloat _ | predicate _ => false

/-- The loader builds every pattern of the list. -/
def loadedAll : List WILPattern → Bool
  | [] => true
  | pattern :: rest => pattern.loaded && loadedAll rest

end

section Print

variable (doubleText : DoubleBits → List Char)

mutual

/-- The s-expression whose text is printed for a pattern. -/
def toSexp : WILPattern → Sexp
  | null => .atom ['<', 'n', 'u', 'l', 'l', '>']
  | var name => .atom ('?' :: nameText name)
  | wildcard => .atom ['_']
  | constInt value => .atom (decimalText value)
  | constFloat value => .atom (doubleText value)
  | constBool value => .atom (if value then ['t', 'r', 'u', 'e'] else ['f', 'a', 'l', 's', 'e'])
  | node kind inputs => .list (.atom (wilNodeKindStr kind).toList :: toSexps inputs)
  | sequence name element =>
    .list [.atom ['s', 'e', 'q'], .atom ('?' :: nameText name), element.toSexp]
  | refinement base => .list [.atom ['r', 'e', 'f', 'i', 'n', 'e'], base.toSexp]
  | predicate _ => .list [.atom ['p', 'r', 'e', 'd']]

/-- The s-expressions of the inputs of a node pattern. -/
def toSexps : List WILPattern → List Sexp
  | [] => []
  | pattern :: rest => pattern.toSexp :: toSexps rest

end

end Print

end WILPattern

section RoundTrip

variable {doubleText : DoubleBits → List Char}

mutual

/-- The printed text is the text of the s-expression. -/
theorem wrsPatternToBuffer_render : ∀ pattern : WILPattern,
    wrsPatternToBuffer doubleText pattern = (pattern.toSexp doubleText).render
  | .null | .var _ | .wildcard | .constInt _ | .constFloat _ | .constBool _ => by
    -- Leaves are printed as their atoms.
    rw [wrsPatternToBuffer, WILPattern.toSexp, Sexp.render]
  | .predicate _ => by
    simp [wrsPatternToBuffer, WILPattern.toSexp, Sexp.render, Sexp.renderRest]
  | .node kind inputs => by
    -- Inputs and elements are printed inside.
    simp [wrsPatternToBuffer, WILPattern.toSexp, Sexp.render, inputsToBuffer_render inputs]
  | .sequence name element => by
    simp [wrsPatternToBuffer, WILPattern.toSexp, Sexp.render, Sexp.renderRest,
      wrsPatternToBuffer_render element]
  | .refinement base => by
    simp [wrsPatternToBuffer, WILPattern.toSexp, Sexp.render, Sexp.renderRest,
      wrsPatternToBuffer_render base]

/-- The inputs of an operator are printed as the trees of the patterns. -/
theorem inputsToBuffer_render : ∀ patterns : List WILPattern,
    inputsToBuffer doubleText patterns = Sexp.renderRest (WILPattern.toSexps doubleText patterns)
  | [] => rfl
  | pattern :: rest => by
    simp [inputsToBuffer, WILPattern.toSexps, Sexp.renderRest, wrsPatternToBuffer_render pattern,
      inputsToBuffer_render rest]

end

/-- Digits may stand in bare atoms. -/
theorem isBare_of_isDigit {char : Char} (digit : char.isDigit = true) :
    Sexp.isBare char = true := by
  by_contra special
  simp only [Sexp.isBare, Sexp.isDelimiter, Sexp.isSpecial, Sexp.isSpace, Bool.and_eq_true,
    Bool.not_eq_true', not_and_or, Bool.not_eq_false, Bool.or_eq_true,
    decide_eq_true_eq] at special
  -- None of the characters that are not bare is a digit.
  rcases special with ((rfl | rfl) | ((((rfl | rfl) | rfl) | rfl) | rfl) | rfl) |
      (rfl | rfl) | rfl <;> cases digit

/-- A number is written in digits, behind a minus if it is negative. -/
theorem decimalText_bare (value : Int) : (Sexp.atom (decimalText value)).bare = true := by
  have digits : ∀ char ∈ Nat.toDigits 10 value.natAbs, Sexp.isBare char = true :=
    fun char member => isBare_of_isDigit
      (Nat.isDigit_of_mem_toDigits (by decide) (by decide) member)
  -- A minus is bare as well.
  have minus : Sexp.isBare '-' = true := by decide
  rw [decimalText, Sexp.bare]
  split
  · simpa [minus] using digits
  · simpa using digits

/-- A name that is bare stays bare behind a question mark. -/
theorem variable_bare {name : Option String}
    (loaded : (name.any fun name => name.toList.all Sexp.isBare) = true) :
    (Sexp.atom ('?' :: nameText name)).bare = true := by
  have mark : Sexp.isBare '?' = true := by decide
  cases name with
  | none => simp at loaded
  | some name =>
    -- Every character of the name is bare, and so is the mark in front.
    have all : name.toList.all Sexp.isBare = true := by simpa using loaded
    simp [Sexp.bare, nameText, mark] at all ⊢
    exact all

mutual

/-- A pattern that the loader builds is printed in bare atoms. -/
theorem toSexp_bare : ∀ {pattern : WILPattern}, pattern.loaded = true →
    (pattern.toSexp doubleText).bare = true
  | .null, _ | .wildcard, _ => rfl
  | .constBool value, _ => by cases value <;> rfl
  | .var name, loaded => by
    -- The name is bare because the loader split it off a bare atom.
    rw [WILPattern.loaded] at loaded
    exact variable_bare loaded
  | .constInt value, _ => decimalText_bare value
  | .node kind inputs, loaded => by
    -- The kind has a bare name, and the inputs are bare by induction.
    rw [WILPattern.loaded] at loaded
    rw [WILPattern.toSexp, Sexp.bare, Sexp.bareAll, (wilNodeKindStr_bare kind).1,
      toSexps_bare loaded]
    rfl
  -- The parts of a sequence and of a refinement are bare in turn.
  | .sequence name element, loaded => by
    rw [WILPattern.loaded, Bool.and_eq_true] at loaded
    rw [WILPattern.toSexp, Sexp.bare, Sexp.bareAll, Sexp.bareAll, Sexp.bareAll,
      variable_bare loaded.1, toSexp_bare loaded.2]
    rfl
  | .refinement base, loaded => by
    rw [WILPattern.loaded] at loaded
    rw [WILPattern.toSexp, Sexp.bare, Sexp.bareAll, Sexp.bareAll, toSexp_bare loaded]
    rfl
  | .constFloat _, loaded | .predicate _, loaded => by simp [WILPattern.loaded] at loaded

/-- The trees of loaded patterns are bare. -/
theorem toSexps_bare : ∀ {patterns : List WILPattern}, WILPattern.loadedAll patterns = true →
    Sexp.bareAll (WILPattern.toSexps doubleText patterns) = true
  | [], _ => rfl
  | pattern :: rest, loaded => by
    rw [WILPattern.loadedAll, Bool.and_eq_true] at loaded
    rw [WILPattern.toSexps, Sexp.bareAll, toSexp_bare loaded.1, toSexps_bare loaded.2]
    rfl

end

/-- An atom that begins with a digit or a minus is a number if it is read as one. -/
theorem wrsPatternFromSexpNode_decimal {value : Int} (low : -2 ^ 63 ≤ value)
    (high : value < 2 ^ 63) :
    wrsPatternFromSexpNode (.atom (decimalText value)) = .constInt value := by
  -- The first character tells the number from the other forms.
  have first : ∀ char, (decimalText value).head? = some char →
      char = '-' ∨ char.isDigit = true := by
    intro char head
    rw [decimalText] at head
    split at head
    · exact .inl (Option.some.inj head).symm
    · exact .inr (Nat.isDigit_of_mem_toDigits (by decide) (by decide) (List.mem_of_mem_head? head))
  have apart : ∀ char text, (char = '-' ∨ char.isDigit = true → False) →
      decimalText value ≠ char :: text := by
    intro char text other same
    exact other (first char (by rw [same]; rfl))
  -- So it is no wildcard, no variable and no truth value.
  have wildcard : decimalText value ≠ ['_'] := apart _ _ (by decide)
  have mark : (decimalText value).head? ≠ some '?' := by
    intro head
    rcases first '?' head with same | digit
    · cases same
    · cases digit
  have truth : ¬ (decimalText value = "true".toList ∨ decimalText value = "false".toList) := by
    rintro (same | same)
    · exact apart 't' ['r', 'u', 'e'] (by decide) same
    · exact apart 'f' ['a', 'l', 's', 'e'] (by decide) same
  rw [wrsPatternFromSexpNode, if_neg wildcard, if_neg mark, wrsConstPatternFromAtom, if_neg truth,
    wrsParseInt64, parseInt64_decimalText low high]
  rfl

/-- A list with the name of a kind in front is a node pattern. -/
theorem wrsPatternFromList_kind (kind : WILNodeKind) (rest : List Sexp) (head : WILPattern)
    (patterns : List WILPattern) :
    wrsPatternFromList (.atom (wilNodeKindStr kind).toList :: rest) (head :: patterns) =
      .node kind patterns := by
  obtain ⟨-, seq, refine_, pred⟩ := wilNodeKindStr_bare kind
  simp only [wrsPatternFromList, List.getElem?_cons_zero, wrsAtomIs, String.toList_inj, seq,
    refine_, pred, decide_false, Bool.false_eq_true, if_false, sexpText, Option.bind_some,
    wrsParseNodeKindSymbol_str, List.drop_succ_cons, List.drop_zero]

mutual

/-- The loader gives a pattern back from its s-expression. -/
theorem wrsPatternFromSexpNode_toSexp : ∀ {pattern : WILPattern}, pattern.loaded = true →
    wrsPatternFromSexpNode (pattern.toSexp doubleText) = pattern
  | .null, _ => by
    rw [WILPattern.toSexp]
    rfl
  | .wildcard, _ => by
    rw [WILPattern.toSexp]
    rfl
  | .constBool value, _ => by
    rw [WILPattern.toSexp]
    cases value <;> rfl
  -- A variable is read by its question mark.
  | .var (some name), _ => by
    rw [WILPattern.toSexp, wrsPatternFromSexpNode, List.head?_cons, if_neg (by simp), if_pos rfl,
      List.tail_cons, nameText, Option.elim_some, String.ofList_toList]
  | .constInt value, loaded => by
    simp only [WILPattern.loaded, Bool.and_eq_true, decide_eq_true_eq] at loaded
    exact wrsPatternFromSexpNode_decimal loaded.1 loaded.2
  -- The inputs are read by the lemma about lists.
  | .node kind inputs, loaded => by
    rw [WILPattern.loaded] at loaded
    rw [WILPattern.toSexp, wrsPatternFromSexpNode, wrsPatternsFromSexpNodes,
      wrsPatternsFromSexpNodes_toSexps loaded, wrsPatternFromList_kind]
  | .sequence (some name) element, loaded => by
    rw [WILPattern.loaded, Bool.and_eq_true] at loaded
    rw [WILPattern.toSexp, wrsPatternFromSexpNode]
    simp only [wrsPatternsFromSexpNodes, wrsPatternFromSexpNode_toSexp loaded.2]
    -- The question mark before the name is dropped again.
    show WILPattern.sequence (some (String.ofList name.toList)) element = _
    rw [String.ofList_toList]
  | .refinement base, loaded => by
    rw [WILPattern.loaded] at loaded
    rw [WILPattern.toSexp, wrsPatternFromSexpNode]
    simp only [wrsPatternsFromSexpNodes, wrsPatternFromSexpNode_toSexp loaded]
    rfl
  | .var none, loaded | .sequence none _, loaded | .constFloat _, loaded
  | .predicate _, loaded => by simp [WILPattern.loaded] at loaded

/-- Loading the trees of loaded patterns gives the patterns back. -/
theorem wrsPatternsFromSexpNodes_toSexps : ∀ {patterns : List WILPattern},
    WILPattern.loadedAll patterns = true →
    wrsPatternsFromSexpNodes (WILPattern.toSexps doubleText patterns) = patterns
  | [], _ => rfl
  | pattern :: rest, loaded => by
    rw [WILPattern.loadedAll, Bool.and_eq_true] at loaded
    rw [WILPattern.toSexps, wrsPatternsFromSexpNodes, wrsPatternFromSexpNode_toSexp loaded.1,
      wrsPatternsFromSexpNodes_toSexps loaded.2]

end

/-- The text of a loaded atom without its question mark is bare. -/
theorem all_isBare_tail {text : List Char} (bare : text.all Sexp.isBare = true) :
    text.tail.all Sexp.isBare = true := by
  cases text with
  | nil => rfl
  | cons char text => exact (Bool.and_eq_true_iff.mp bare).2

/-- A constant that an atom spells is in range. -/
theorem wrsConstPatternFromAtom_loaded {text : List Char} {constant : WILPattern}
    (found : wrsConstPatternFromAtom text = some constant) : constant.loaded = true := by
  rw [wrsConstPatternFromAtom] at found
  split at found
  · cases found
    rfl
  · obtain ⟨value, parsed, rfl⟩ := Option.map_eq_some_iff.mp found
    -- The parser returns numbers of 64 bits only.
    have range := parseInt64_range parsed
    simpa [WILPattern.loaded] using range

/-- A list of loaded patterns is loaded from any place on. -/
theorem loadedAll_iff {patterns : List WILPattern} :
    WILPattern.loadedAll patterns = true ↔ ∀ pattern ∈ patterns, pattern.loaded = true := by
  induction patterns with
  | nil => simp [WILPattern.loadedAll]
  | cons pattern rest ih => simp [WILPattern.loadedAll, ih]

/-- Sequences are named in a list of patterns if they are in each. -/
theorem namedSequencesAll_iff {patterns : List WILPattern} :
    WILPattern.namedSequencesAll patterns = true ↔
      ∀ pattern ∈ patterns, pattern.namedSequences = true := by
  induction patterns with
  | nil => simp [WILPattern.namedSequencesAll]
  | cons pattern rest ih => simp [WILPattern.namedSequencesAll, ih]

/-- The text of an atom among bare expressions is bare. -/
theorem sexpText_bare {children : List Sexp} (bare : Sexp.bareAll children = true) {index : Nat}
    {text : List Char} (found : sexpText children[index]? = some text) :
    text.all Sexp.isBare = true := by
  induction children generalizing index with
  | nil => simp [sexpText] at found
  | cons child rest ih =>
    rw [Sexp.bareAll, Bool.and_eq_true] at bare
    cases index with
    | zero =>
      -- The text is that of the first child, if it is an atom.
      cases child with
      | atom own =>
        obtain rfl : own = text := by simpa [sexpText] using found
        exact (Bool.and_eq_true_iff.mp bare.1).2
      | list children => simp [sexpText] at found
    | succ index => exact ih bare.2 (by simpa using found)

/-- A list gives a loaded pattern when its children do. -/
theorem wrsPatternFromList_loaded {children : List Sexp} {patterns : List WILPattern}
    (bare : Sexp.bareAll children = true)
    (inner : ∀ pattern ∈ patterns, pattern.namedSequences = true → pattern.loaded = true)
    (named : (wrsPatternFromList children patterns).namedSequences = true) :
    (wrsPatternFromList children patterns).loaded = true := by
  -- A missing child gives the null pattern, which is loaded.
  have child : ∀ index : Nat, (patterns[index]?.getD WILPattern.null).namedSequences = true →
      (patterns[index]?.getD WILPattern.null).loaded = true := by
    intro index own
    cases found : patterns[index]? with
    | none => rfl
    | some pattern =>
      rw [found] at own
      exact inner pattern (List.mem_of_getElem? found) own
  -- The branches of the loader are taken one after the other.
  rw [wrsPatternFromList] at named ⊢
  dsimp only at named ⊢
  split
  · rename_i seq
    rw [if_pos seq, WILPattern.namedSequences, Bool.and_eq_true] at named
    rw [WILPattern.loaded, child 2 named.2, Bool.and_true]
    cases found : sexpText children[1]? with
    | none => simp [found] at named
    | some text =>
      have bareText := sexpText_bare bare found
      simp only [Option.map_some, Option.any_some, String.toList_ofList]
      split
      · exact all_isBare_tail bareText
      · exact bareText
  · rename_i seq
    rw [if_neg seq] at named
    split
    · rename_i refine_
      rw [if_pos refine_] at named
      exact child 1 named
    · rename_i refine_
      rw [if_neg refine_] at named
      split
      · rfl
      · rename_i pred
        rw [if_neg pred] at named
        split
        · rfl
        -- The inputs of an operator are loaded by the induction.
        · rename_i kind found
          rw [found] at named
          rw [WILPattern.loaded, loadedAll_iff]
          intro pattern member
          exact inner pattern (List.mem_of_mem_drop member)
            (namedSequencesAll_iff.mp named pattern member)

mutual

/-- Bare rule text gives loaded patterns. -/
theorem wrsPatternFromSexpNode_loaded : ∀ {node : Sexp}, node.bare = true →
    (wrsPatternFromSexpNode node).namedSequences = true →
    (wrsPatternFromSexpNode node).loaded = true
  | .atom text, bare, _ => by
    -- The atom is tried as a wildcard, a variable, a constant, and a truth value, in this order.
    rw [Sexp.bare, Bool.and_eq_true] at bare
    rw [wrsPatternFromSexpNode]
    split
    · rfl
    · split
      · have name := all_isBare_tail bare.2
        simpa [WILPattern.loaded] using name
      · split
        · rename_i found
          exact wrsConstPatternFromAtom_loaded found
        · split <;> rfl
  | .list children, bare, named => by
    -- A list is an operator or one of the special forms.
    rw [Sexp.bare] at bare
    rw [wrsPatternFromSexpNode] at named ⊢
    exact wrsPatternFromList_loaded bare (wrsPatternsFromSexpNodes_loaded bare) named

/-- What is loaded from bare trees, with its sequences named, would be loaded again. -/
theorem wrsPatternsFromSexpNodes_loaded : ∀ {nodes : List Sexp}, Sexp.bareAll nodes = true →
    ∀ pattern ∈ wrsPatternsFromSexpNodes nodes, pattern.namedSequences = true →
      pattern.loaded = true
  | [], _, pattern, member, _ => by cases member
  | node :: nodes, bare, pattern, member, named => by
    rw [Sexp.bareAll, Bool.and_eq_true] at bare
    rw [wrsPatternsFromSexpNodes] at member
    -- A pattern of the list is loaded from one of the trees.
    rcases List.mem_cons.mp member with rfl | later
    · exact wrsPatternFromSexpNode_loaded bare.1 named
    · exact wrsPatternsFromSexpNodes_loaded bare.2 pattern later named

end

end RoundTrip

/-- On texts without quotes and comments, the library reads a form of bare atoms and lists. -/
def UsualReader (parseSexp : List Char → Option Sexp) : Prop :=
  ∀ text form, (∀ char ∈ text, Sexp.isSpecial char = false) → Sexp.read text = some [form] →
    parseSexp text = some form

mutual

/-- The text of a bare expression has neither quotes nor semicolons. -/
theorem render_special : ∀ {node : Sexp}, node.bare = true →
    ∀ char ∈ node.render, Sexp.isSpecial char = false
  | .atom text, bare, char, member => by
    rw [Sexp.bare, Bool.and_eq_true] at bare
    rw [Sexp.render] at member
    -- Bare characters are neither quotes nor semicolons.
    have own := List.all_eq_true.mp bare.2 char member
    simp only [Sexp.isBare, Bool.and_eq_true, Bool.not_eq_true'] at own
    exact own.2
  | .list [], _, char, member => by
    simp only [Sexp.render, List.mem_cons, List.not_mem_nil, or_false] at member
    -- An empty list is two parentheses.
    rcases member with rfl | rfl <;> rfl
  | .list (first :: rest), bare, char, member => by
    rw [Sexp.bare, Sexp.bareAll, Bool.and_eq_true] at bare
    simp only [Sexp.render, List.mem_cons, List.mem_append, List.not_mem_nil, or_false] at member
    -- Otherwise the character is a parenthesis or stands in one of the children.
    rcases member with rfl | inFirst | inRest | rfl
    · rfl
    · exact render_special bare.1 char inFirst
    · exact renderRest_special bare.2 char inRest
    · rfl

/-- No special character is printed for bare trees. -/
theorem renderRest_special : ∀ {nodes : List Sexp}, Sexp.bareAll nodes = true →
    ∀ char ∈ Sexp.renderRest nodes, Sexp.isSpecial char = false
  | [], _, char, member => by simp [Sexp.renderRest] at member
  | node :: nodes, bare, char, member => by
    rw [Sexp.bareAll, Bool.and_eq_true] at bare
    simp only [Sexp.renderRest, List.mem_cons, List.mem_append] at member
    -- Every child comes behind a space.
    rcases member with rfl | inNode | inRest
    · rfl
    · exact render_special bare.1 char inNode
    · exact renderRest_special bare.2 char inRest

end

/-- The text printed for a pattern from bare rule text is read as one form, from which the loader
builds the pattern again. -/
theorem wilPatternToString_reads_back (doubleText : DoubleBits → List Char)
    {parseSexp : List Char → Option Sexp} (usual : UsualReader parseSexp) {node : Sexp}
    (bare : node.bare = true)
    (named : (wrsPatternFromSexpNode node).namedSequences = true) :
    ∃ form, wirbleSexpTreeParseCstr parseSexp
        (wilPatternToString doubleText (wrsPatternFromSexpNode node)) = some [form] ∧
      wrsPatternFromSexpNode form = wrsPatternFromSexpNode node := by
  have loaded := wrsPatternFromSexpNode_loaded bare named
  have printed : ((wrsPatternFromSexpNode node).toSexp doubleText).bare = true :=
    toSexp_bare loaded
  refine ⟨(wrsPatternFromSexpNode node).toSexp doubleText, ?_,
    wrsPatternFromSexpNode_toSexp loaded⟩
  rw [wilPatternToString, wrsPatternToBuffer_render, wirbleSexpTreeParseCstr]
  -- The wrapper puts the form on a line of its own between parentheses.
  have line : ∀ char ∈ ['\n'], Sexp.isSpace char = true := List.forall_mem_singleton.mpr rfl
  have read := Sexp.read_wrapped printed line line line
  have wrapped := usual _ _ ?_ read
  -- Printing and wrapping gives the text of one line.
  · have text : "(\n".toList ++ (((wrsPatternFromSexpNode node).toSexp doubleText).render ++
        "\n)\n".toList) = '(' :: (['\n'] ++ (((wrsPatternFromSexpNode node).toSexp
          doubleText).render ++ (['\n'] ++ ')' :: ['\n']))) := rfl
    rw [text, wrapped]
    rfl
  -- No character of the text is special to the reader.
  · intro char member
    simp only [List.cons_append, List.nil_append, List.mem_cons, List.mem_append,
      List.not_mem_nil, or_false] at member
    rcases member with rfl | rfl | inText | rfl | rfl | rfl
    · rfl
    · rfl
    · exact render_special printed char inText
    · rfl
    · rfl
    · rfl

/-- A library that reads one form of bare atoms and lists, and nothing else. -/
def bareReader (text : List Char) : Option Sexp :=
  match Sexp.read text with
  | some [form] => some form
  | _ => none

/-- The sum of a sequence without an element and a number out of range is read back. -/
theorem wilPatternToString_reads_back_sum :
    let sum : Sexp := .list [.atom "add".toList,
      .list [.atom "seq".toList, .atom "??x".toList], .atom "99999999999999999999".toList]
    ∃ form, wirbleSexpTreeParseCstr bareReader
        (wilPatternToString (fun _ => []) (wrsPatternFromSexpNode sum)) = some [form] ∧
      wrsPatternFromSexpNode form = wrsPatternFromSexpNode sum :=
  wilPatternToString_reads_back (fun _ => [])
    (fun text form _ read => by rw [bareReader, read]) (by decide) (by decide)

end Wirble
