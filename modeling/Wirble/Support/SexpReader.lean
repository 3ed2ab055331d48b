import Wirble.Library.Lexer
import Wirble.Wrs.Guards

/-! The reader of rule texts, which is to read a text completely or to reject it. -/

namespace Wirble

open QuotedSexp (AtomKind Balanced Lexer Node Opened Token depth first)

/-! Trees. -/

/-- A node of a tree, with the counts that are stored in it. -/
inductive WirbleSexpNode where
  | atom (atomKind : AtomKind) (text : List Char) (textLength : Nat)
  | list (children : List WirbleSexpNode) (childCount : Nat)

structure WirbleSexpTree where
  sourceName : String
  root : WirbleSexpNode
  formCount : Nat

mutual

/-- The node that the loop of `wirble_sexp_build_from_sfsexp` adds for an element. -/
def wirbleSexpBuildNode : Node → WirbleSexpNode
  | .atom kind text => .atom kind text text.length
  | .list children =>
    let (nodes, count) := wirbleSexpBuildFromSfsexp children
    .list nodes count

/-- `wirble_sexp_build_from_sfsexp`, with the number of children that it counts for the parent. -/
def wirbleSexpBuildFromSfsexp : List Node → List WirbleSexpNode × Nat
  | [] => ([], 0)
  | cursor :: next =>
    let node := wirbleSexpBuildNode cursor
    let (siblings, count) := wirbleSexpBuildFromSfsexp next
    (node :: siblings, count + 1)

end

/-- `wirble_sexp_safe_source`. -/
def wirbleSexpSafeSource : Option String → String
  | none => "<sexp>"
  | some name => if name = "" then "<sexp>" else name

/-- `wirble_sexp_wrap_input`. -/
def wirbleSexpWrapInput (text : List Char) : List Char :=
  "(\n".toList ++ text ++ "\n)\n".toList

section Parse

-- `parse_sexp` belongs to the reader library, with the error number that it leaves.
variable (parseSexp : List Char → Except Int Node)

/-- `wirble_sexp_parse_buffer`: the elements of the parsed list are the forms of the tree. -/
def wirbleSexpParseBuffer (sourceName : String) (storage : List Char) :
    Except String WirbleSexpTree :=
  match parseSexp storage with
  | .error errno =>
    .error s!"failed to parse s-expression input from {sourceName} (sfsexp err={errno})"
  | .ok parsed =>
    let elements := match parsed with
      | .list elements => elements
      | .atom _ _ => []
    let (children, count) := wirbleSexpBuildFromSfsexp elements
    .ok { sourceName, root := .list children count, formCount := count }

/-- `wirble_sexp_tree_parse_cstr`. -/
def WirbleSexpTree.parseCstr (sourceName : Option String) (text : List Char) :
    Except String WirbleSexpTree :=
  wirbleSexpParseBuffer parseSexp (wirbleSexpSafeSource sourceName) (wirbleSexpWrapInput text)

end Parse

/-! Rule files. -/

structure WRSFile where
  rules : List WILRewriteRule
  strategy : WILRewriteStrategy

mutual

/-- The form that a node holds. -/
def WirbleSexpNode.form : WirbleSexpNode → Node
  | .atom kind text _ => .atom kind text
  | .list children _ => .list (WirbleSexpNode.formAll children)

def WirbleSexpNode.formAll : List WirbleSexpNode → List Node
  | [] => []
  | node :: rest => node.form :: WirbleSexpNode.formAll rest

end

/-- The forms of a tree, in order. -/
def WirbleSexpTree.forms (tree : WirbleSexpTree) : List Node :=
  match tree.root with
  | .list children _ => WirbleSexpNode.formAll children
  | .atom _ _ _ => []

/-- `wrs_parse_strategy_atom`. -/
def wrsParseStrategyAtom : Option (List Char) → WILRewriteStrategy
  | none => .innermost
  | some text =>
    if text = "outermost".toList then .outermost
    else if text = "leftmost".toList then .leftmost
    else if text = "parallel".toList then .parallel
    else .innermost

section Load

variable (strtod : List Char → BitVec 64)

/-- One round of the loop of `wrs_file_load_tree`. -/
def wrsFileLoadForm (file : WRSFile) : Node → WRSFile
  | .list children =>
    if wirbleSexpAtomEquals children.head? "rule" then
      match wrsRuleFromTree strtod (.list children) with
      | some rule => { file with rules := file.rules ++ [rule] }
      | none => file
    else if wirbleSexpAtomEquals children.head? "strategy" then
      -- A list in place of the name has no text.
      { file with strategy := wrsParseStrategyAtom (sexpText (children[1]?.map wrsPlainTree)) }
    else file
  | .atom _ _ => file

/-- `wrs_file_load_tree`. -/
def wrsFileLoadTree (tree : WirbleSexpTree) : WRSFile :=
  tree.forms.foldl (wrsFileLoadForm strtod) { rules := [], strategy := .innermost }

variable (parseSexp : List Char → Except Int Node)

/-- `wrsFileLoadFromString`, whose messages go to the diagnostics. -/
def wrsFileLoadFromString (source : List Char) : Except String WRSFile :=
  (WirbleSexpTree.parseCstr parseSexp (some "<string>") source).map (wrsFileLoadTree strtod)

end Load

/-! Building keeps the forms. -/

mutual

/-- The list built for a tree is that tree. -/
theorem form_buildNode : ∀ node : Node, (wirbleSexpBuildNode node).form = node
  | .atom _ _ => rfl
  | .list children => congrArg Node.list (formAll_build children).1

/-- The nodes that are built hold the elements, and there are as many. -/
theorem formAll_build : ∀ nodes : List Node,
    WirbleSexpNode.formAll (wirbleSexpBuildFromSfsexp nodes).1 = nodes ∧
      (wirbleSexpBuildFromSfsexp nodes).2 = nodes.length
  | [] => ⟨rfl, rfl⟩
  | node :: rest => by
    -- One node is built for each element.
    obtain ⟨same, count⟩ := formAll_build rest
    constructor
    · show (wirbleSexpBuildNode node).form ::
        WirbleSexpNode.formAll (wirbleSexpBuildFromSfsexp rest).1 = node :: rest
      rw [form_buildNode, same]
    · show (wirbleSexpBuildFromSfsexp rest).2 + 1 = rest.length + 1
      rw [count]

end

/-- The rules that a form adds to a file. -/
theorem wrsFileLoadForm_rules (strtod : List Char → BitVec 64) (file : WRSFile) (form : Node) :
    (wrsFileLoadForm strtod file form).rules =
      file.rules ++ (wrsRuleFromTree strtod form).toList := by
  -- Rules are the forms that begin with their word, and nothing else adds one.
  cases form with
  | atom kind text => exact (List.append_nil _).symm
  | list children =>
    rw [wrsFileLoadForm]
    by_cases rule : wirbleSexpAtomEquals children.head? "rule" = true
    · rw [if_pos rule]
      cases wrsRuleFromTree strtod (.list children) with
      | none => exact (List.append_nil _).symm
      | some loaded => rfl
    · -- No other form is taken for a rule.
      have none : wrsRuleFromTree strtod (.list children) = none := by
        rw [wrsRuleFromTree, wirbleSexpExtractRule, if_neg rule]
        rfl
      rw [if_neg rule, none]
      split
      · exact (List.append_nil _).symm
      · exact (List.append_nil _).symm

/-- The rules of a file are those of all its forms, in order. -/
theorem wrsFileLoadTree_rules (strtod : List Char → BitVec 64) (tree : WirbleSexpTree) :
    (wrsFileLoadTree strtod tree).rules = tree.forms.filterMap (wrsRuleFromTree strtod) := by
  -- Each form adds its rule, if it has one, behind those that are there.
  have loop (forms : List Node) (file : WRSFile) :
      (forms.foldl (wrsFileLoadForm strtod) file).rules =
        file.rules ++ forms.filterMap (wrsRuleFromTree strtod) := by
    induction forms generalizing file with
    | nil => exact (List.append_nil _).symm
    | cons form forms next =>
      rw [List.foldl_cons, next, wrsFileLoadForm_rules, List.append_assoc]
      congr 1
      cases loaded : wrsRuleFromTree strtod form with
      | none => rw [List.filterMap_cons_none loaded]; rfl
      | some rule => rw [List.filterMap_cons_some loaded]; rfl
  exact (loop tree.forms _).trans (List.nil_append _)

section Reader

variable {σ : Type} {lexer : Lexer σ} {quoted : σ → Prop} {parseSexp : List Char → Except Int Node}

/-- A parsed list becomes a tree of its elements. -/
theorem parseCstr_list {sourceName : Option String} {text : List Char} {elements : List Node}
    (parsed : parseSexp (wirbleSexpWrapInput text) = .ok (.list elements)) :
    ∃ tree, WirbleSexpTree.parseCstr parseSexp sourceName text = .ok tree ∧
      tree.forms = elements ∧ tree.formCount = elements.length := by
  obtain ⟨same, count⟩ := formAll_build elements
  rw [WirbleSexpTree.parseCstr, wirbleSexpParseBuffer, parsed]
  exact ⟨_, rfl, same, count⟩

/-- The forms of the tree, where only those are read, without the kinds of their atoms. -/
theorem wirbleSexpTreeParseCstr_forms (sourceName : Option String) (text : List Char) :
    wirbleSexpTreeParseCstr (fun text => (parseSexp text).toOption.map wrsPlainTree) text =
      (WirbleSexpTree.parseCstr parseSexp sourceName text).toOption.map
        fun tree => wrsPlainTrees tree.forms := by
  -- The wrapper puts the text between parentheses on lines of their own.
  have wrapped : "(\n".toList ++ (text ++ "\n)\n".toList) = wirbleSexpWrapInput text :=
    (List.append_assoc ..).symm
  rw [wirbleSexpTreeParseCstr, wrapped]
  cases result : parseSexp (wirbleSexpWrapInput text) with
  | error errno =>
    rw [WirbleSexpTree.parseCstr, wirbleSexpParseBuffer, result]
    rfl
  | ok form =>
    rw [WirbleSexpTree.parseCstr, wirbleSexpParseBuffer, result]
    cases form with
    | atom kind text => rfl
    | list elements =>
      exact congrArg (fun forms => some (wrsPlainTrees forms)) (formAll_build elements).1.symm

/-- Only the first form of the tree is read. -/
theorem wrsFirstForm_forms (sourceName : Option String) (text : List Char) :
    wrsFirstForm (fun text => (parseSexp text).toOption) text =
      (WirbleSexpTree.parseCstr parseSexp sourceName text).toOption.bind
        fun tree => tree.forms.head? := by
  -- The wrapper puts the text between parentheses on lines of their own.
  have wrapped : "(\n".toList ++ (text ++ "\n)\n".toList) = wirbleSexpWrapInput text :=
    (List.append_assoc ..).symm
  rw [wrsFirstForm, wrapped]
  cases result : parseSexp (wirbleSexpWrapInput text) with
  | error errno =>
    rw [WirbleSexpTree.parseCstr, wirbleSexpParseBuffer, result]
    rfl
  | ok form =>
    rw [WirbleSexpTree.parseCstr, wirbleSexpParseBuffer, result]
    cases form with
    | atom kind text => rfl
    | list elements => exact congrArg List.head? (formAll_build elements).1.symm

/-- Nothing is returned for a text that the library rejects. -/
theorem parseCstr_error {sourceName : Option String} {text : List Char} {errno : Int}
    (rejected : parseSexp (wirbleSexpWrapInput text) = .error errno) (tree : WirbleSexpTree) :
    WirbleSexpTree.parseCstr parseSexp sourceName text ≠ .ok tree := by
  rw [WirbleSexpTree.parseCstr, wirbleSexpParseBuffer, rejected]
  exact nofun

/-- The wrapped text is two lines longer. -/
theorem wirbleSexpWrapInput_lines (text : List Char) :
    wirbleSexpWrapInput text = '(' :: '\n' :: (text ++ ['\n', ')']) ++ ['\n'] := by
  show "(\n".toList ++ text ++ "\n)\n".toList = _
  simp

/-- What the library returns for the wrapped text. -/
theorem parse_wrapped (lawful : lexer.Lawful quoted)
    (reads : lexer.ReadsFirst fun text => (parseSexp text).toOption) (text : List Char) :
    ∃ rest, (parseSexp (wirbleSexpWrapInput text)).toOption =
        first [[]] (.opening :: (lexer.tokens text ++ rest)) ∧
      (¬ quoted (lexer.run lexer.start text).1 → rest = [.closing]) ∧
      (quoted (lexer.run lexer.start text).1 → ∀ token ∈ rest, token ≠ .closing) := by
  -- The scanner sees the tokens of the text between those of the parentheses.
  obtain ⟨rest, tokens, ended, inside⟩ := lawful.tokens_wrapped text
  refine ⟨rest, ?_, ended, inside⟩
  rw [wirbleSexpWrapInput_lines, ← tokens]
  exact reads _

/-- The tree has the forms of the whole text, whose parentheses are balanced. -/
structure ReadCompletely (lexer : Lexer σ) (quoted : σ → Prop) (text : List Char)
    (tree : WirbleSexpTree) : Prop where
  /-- No quote is left open. -/
  ended : ¬ quoted (lexer.run lexer.start text).1
  balanced : Balanced (lexer.tokens text)
  forms : Node.tokensAll tree.forms = lexer.tokens text
  count : tree.formCount = tree.forms.length

/-- A tree for a text whose parentheses do not close too much. -/
theorem parseCstr_opened (lawful : lexer.Lawful quoted)
    (reads : lexer.ReadsFirst fun text => (parseSexp text).toOption)
    {sourceName : Option String} {text : List Char} (opened : Opened (lexer.tokens text))
    {tree : WirbleSexpTree}
    (parsed : WirbleSexpTree.parseCstr parseSexp sourceName text = .ok tree) :
    ReadCompletely lexer quoted text tree := by
  obtain ⟨rest, returned, ended, inside⟩ := parse_wrapped lawful reads text
  obtain ⟨count, nested⟩ := Option.isSome_iff_exists.mp opened
  have some : first [[]] (.opening :: (lexer.tokens text ++ rest)) ≠ none := by
    intro none
    rw [none] at returned
    cases result : parseSexp (wirbleSexpWrapInput text) with
    | error errno => exact parseCstr_error result tree parsed
    | ok form =>
      rw [result] at returned
      cases returned
  -- Inside of a quote the wrapper is not closed, and neither is it while lists are open.
  have outside : ¬ quoted (lexer.run lexer.start text).1 := by
    intro unended
    obtain ⟨inner, below, placed, -⟩ := @QuotedSexp.placed_of_depth _ [] [] _ nested
    apply some
    rw [QuotedSexp.first_wrapped placed]
    exact QuotedSexp.first_open (inside unended) inner below
  rw [ended outside] at returned some
  cases count with
  | succ count => exact absurd (QuotedSexp.first_unclosed nested) some
  -- The forms are read, and the wrapper encloses them.
  | zero =>
    obtain ⟨forms, all, read⟩ := QuotedSexp.first_balanced nested
    rw [read []] at returned
    cases result : parseSexp (wirbleSexpWrapInput text) with
    | error errno =>
      rw [result] at returned
      cases returned
    | ok form =>
      rw [result] at returned
      obtain rfl : form = .list forms := Option.some.inj returned
      -- The tree that was parsed is the one of these forms.
      obtain ⟨tree', parsed', same, number⟩ := @parseCstr_list _ sourceName _ _ result
      rw [parsed] at parsed'
      cases parsed'
      exact ⟨outside, nested, by rw [same, all], by rw [number, same]⟩

/-- A parenthesis that closes too much is taken for the end of the text: what comes before it are
the forms of the tree. -/
theorem parseCstr_surplus (lawful : lexer.Lawful quoted)
    (reads : lexer.ReadsFirst fun text => (parseSexp text).toOption)
    (sourceName : Option String) {text : List Char} (surplus : ¬ Opened (lexer.tokens text)) :
    ∃ before after tree, lexer.tokens text = before ++ .closing :: after ∧
      WirbleSexpTree.parseCstr parseSexp sourceName text = .ok tree ∧
        Node.tokensAll tree.forms = before := by
  obtain ⟨rest, returned, -⟩ := parse_wrapped lawful reads text
  obtain ⟨before, after, forms, split, all, read⟩ := QuotedSexp.first_surplus surplus
  -- The reader stops at the surplus parenthesis, and what it has are the forms of the tree.
  rw [read rest] at returned
  cases result : parseSexp (wirbleSexpWrapInput text) with
  | error errno =>
    rw [result] at returned
    cases returned
  | ok form =>
    rw [result] at returned
    obtain rfl : form = .list forms := Option.some.inj returned
    obtain ⟨tree, parsed, same, -⟩ := @parseCstr_list _ sourceName _ _ result
    exact ⟨before, after, tree, split, parsed, by rw [same, all]⟩

/-- The rules of all forms of such a text are loaded. -/
theorem wrsFileLoadFromString_opened (lawful : lexer.Lawful quoted)
    (reads : lexer.ReadsFirst fun text => (parseSexp text).toOption)
    (strtod : List Char → BitVec 64) {source : List Char} (opened : Opened (lexer.tokens source))
    {file : WRSFile} (loaded : wrsFileLoadFromString strtod parseSexp source = .ok file) :
    ∃ forms, Node.tokensAll forms = lexer.tokens source ∧
      file.rules = forms.filterMap (wrsRuleFromTree strtod) := by
  rw [wrsFileLoadFromString] at loaded
  -- A rejected text loads no file.
  cases parsed : WirbleSexpTree.parseCstr parseSexp (some "<string>") source with
  | error message =>
    rw [parsed] at loaded
    cases loaded
  | ok tree =>
    rw [parsed] at loaded
    cases loaded
    exact ⟨tree.forms, (parseCstr_opened lawful reads opened parsed).forms,
      wrsFileLoadTree_rules strtod tree⟩

/-- Of another text only the rules in front of the surplus parenthesis are loaded, and the file is
returned as if there were no others. -/
theorem wrsFileLoadFromString_surplus (lawful : lexer.Lawful quoted)
    (reads : lexer.ReadsFirst fun text => (parseSexp text).toOption)
    (strtod : List Char → BitVec 64) {source : List Char}
    (surplus : ¬ Opened (lexer.tokens source)) :
    ∃ before after forms file, lexer.tokens source = before ++ .closing :: after ∧
      Node.tokensAll forms = before ∧ wrsFileLoadFromString strtod parseSexp source = .ok file ∧
        file.rules = forms.filterMap (wrsRuleFromTree strtod) := by
  -- The tree has the forms in front of the surplus parenthesis only.
  obtain ⟨before, after, tree, split, parsed, all⟩ :=
    parseCstr_surplus lawful reads (some "<string>") surplus
  refine ⟨before, after, tree.forms, wrsFileLoadTree strtod tree, split, all, ?_,
    wrsFileLoadTree_rules strtod tree⟩
  rw [wrsFileLoadFromString, parsed]
  rfl

/-- A text is read completely or rejected exactly if no parenthesis closes too much. -/
theorem parseCstr_complete_iff (lawful : lexer.Lawful quoted)
    (reads : lexer.ReadsFirst fun text => (parseSexp text).toOption)
    (sourceName : Option String) (text : List Char) :
    (∀ tree, WirbleSexpTree.parseCstr parseSexp sourceName text = .ok tree →
        ReadCompletely lexer quoted text tree) ↔ Opened (lexer.tokens text) := by
  constructor
  · intro complete
    by_contra surplus
    -- The tree would be balanced, and the text is not.
    obtain ⟨before, after, tree, -, parsed, -⟩ := parseCstr_surplus lawful reads sourceName surplus
    have balanced := (complete tree parsed).balanced
    exact surplus (Option.isSome_of_eq_some balanced)
  · intro opened tree parsed
    exact parseCstr_opened lawful reads opened parsed

end Reader

/-- A reader of texts with the usual quotes and comments. -/
def plainReader (text : List Char) : Except Int Node :=
  match first [[]] (QuotedSexp.Place.lexer.run .between text).2 with
  | some form => .ok form
  | none => .error 1

/-- The reader without quotes reads the first tree of a text. -/
theorem plainReader_reads :
    QuotedSexp.Place.lexer.ReadsFirst fun text => (plainReader text).toOption := by
  intro text
  show (plainReader (text ++ ['\n'])).toOption =
    first [[]] (QuotedSexp.Place.lexer.run .between (text ++ ['\n'])).2
  rw [plainReader]
  cases first [[]] (QuotedSexp.Place.lexer.run .between (text ++ ['\n'])).2 <;> rfl

/-- A text with parentheses in a string and in a comment. -/
def quotedText : List Char :=
  ['(', 'f', ' ', '"', ')', '"', ' ', '\'', 'x', ')', ' ', ';', ')', '\n', 'b']

/-- Parentheses in quotes and comments do not count. -/
theorem parseCstr_complete_quotes :
    ∃ tree, WirbleSexpTree.parseCstr plainReader none quotedText = .ok tree ∧
      ReadCompletely QuotedSexp.Place.lexer QuotedSexp.Place.quoted quotedText tree := by
  obtain ⟨tree, parsed, -⟩ := @parseCstr_list plainReader none quotedText
    [.list [.atom .bare ['f'], .atom .doubleQuoted [')'], .atom .singleQuoted ['x']],
      .atom .bare ['b']] rfl
  -- No parenthesis outside of them closes too much.
  have opened : Opened (QuotedSexp.Place.lexer.tokens quotedText) := by decide
  exact ⟨tree, parsed, (parseCstr_complete_iff QuotedSexp.Place.lawful plainReader_reads none
    quotedText).mpr opened tree parsed⟩

/-- The form behind a surplus parenthesis is dropped without a word. -/
theorem parseCstr_not_complete :
    ¬ ∀ (σ : Type) (lexer : Lexer σ) (quoted : σ → Prop) (parseSexp : List Char → Except Int Node),
      lexer.Lawful quoted → (lexer.ReadsFirst fun text => (parseSexp text).toOption) →
        ∀ sourceName text tree, WirbleSexpTree.parseCstr parseSexp sourceName text = .ok tree →
          ReadCompletely lexer quoted text tree := by
  intro complete
  let text := ['a', ' ', ')', ' ', 'b']
  -- The closing parenthesis ends the wrapper, so one form is read and the other is not.
  obtain ⟨tree, parsed, -⟩ := @parseCstr_list plainReader none text [.atom .bare ['a']] rfl
  have read := complete _ _ _ _ QuotedSexp.Place.lawful plainReader_reads none text tree parsed
  exact absurd read.balanced (by decide)

end Wirble
