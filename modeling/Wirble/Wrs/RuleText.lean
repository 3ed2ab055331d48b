import Wirble.Support.SexpReader
import Wirble.Wrs.StdRewrite

/-! Rewrite systems printed as rule files, and what loading such a file gives. -/

namespace Wirble

open QuotedSexp (Node)

/-! Printing. -/

section Print

-- The conversion `%g` of the C library, which no pattern of a rule file needs.
variable (doubleText : DoubleBits → List Char)

/-- The condition of a rule is not printed, and neither is its action. -/
def wilRuleToString (rule : WILRewriteRule) : List Char :=
  "(rule :name ".toList ++ (rule.name.toList ++ (" :match ".toList ++
    (wilPatternToString doubleText rule.lhs ++ (" :replace ".toList ++
      (wilPatternToString doubleText rule.rhs ++ [')'])))))

/-- Every rule stands on a line of its own. -/
def wilRewriteSystemToString (sys : WILRewriteSystem) : List Char :=
  sys.rules.flatMap fun rule => wilRuleToString doubleText rule ++ ['\n']

/-! The forms that are printed. -/

/-- The form of a rule. -/
def ruleForm (rule : WILRewriteRule) : Sexp :=
  .list [.atom "rule".toList, .atom ":name".toList, .atom rule.name.toList, .atom ":match".toList,
    rule.lhs.toSexp doubleText, .atom ":replace".toList, rule.rhs.toSexp doubleText]

/-- A rule whose name is a bare word and whose patterns are such as the loader builds. -/
structure WILRewriteRule.Printable (rule : WILRewriteRule) : Prop where
  named : rule.name ≠ ""
  bare : rule.name.toList.all Sexp.isBare = true
  lhs : rule.lhs.loaded = true
  rhs : rule.rhs.loaded = true

/-- The name of a rule is not taken for the keyword of another part. Where it is, that part must be
the null pattern, which is what the keyword behind the name reads as. -/
structure WILRewriteRule.Apart (rule : WILRewriteRule) : Prop where
  condition : rule.name ≠ ":when"
  matched : rule.name = ":match" → rule.lhs = .null
  replace : rule.name = ":replace" → rule.rhs = .null

/-- What is left of a rule in its text. -/
def WILRewriteRule.plain (rule : WILRewriteRule) : WILRewriteRule :=
  wilRuleCreateSimple rule.name rule.lhs rule.rhs

end Print

section Forms

variable {doubleText : DoubleBits → List Char} {rule : WILRewriteRule}

/-- The form of a rule is printed as the rule. -/
theorem ruleForm_render (rule : WILRewriteRule) :
    (ruleForm doubleText rule).render = wilRuleToString doubleText rule := by
  -- The texts around the parts are read as words behind single spaces.
  have front : "(rule :name ".toList = '(' :: ("rule".toList ++ ' ' :: (":name".toList ++ [' '])) :=
    by decide
  have matched : " :match ".toList = ' ' :: (":match".toList ++ [' ']) := by decide
  have replace : " :replace ".toList = ' ' :: (":replace".toList ++ [' ']) := by decide
  unfold wilRuleToString wilPatternToString
  rw [wrsPatternToBuffer_render, wrsPatternToBuffer_render, front, matched, replace]
  simp only [ruleForm, Sexp.render, Sexp.renderRest, List.append_assoc, List.cons_append,
    List.nil_append, List.append_nil]

/-- The form of a printable rule has no special character in its atoms. -/
theorem WILRewriteRule.Printable.form_bare (printable : rule.Printable) :
    (ruleForm doubleText rule).bare = true := by
  -- The rule has a name, so no atom is empty.
  have name : rule.name.toList ≠ [] := by
    intro empty
    exact printable.named (String.toList_inj.mp empty)
  have lhs := @toSexp_bare doubleText _ printable.lhs
  have rhs := @toSexp_bare doubleText _ printable.rhs
  have atoms : ∀ text ∈ ["rule", ":name", ":match", ":replace"],
      (Sexp.atom text.toList).bare = true := by decide
  simp only [ruleForm, Sexp.bare, Sexp.bareAll, lhs, rhs, printable.bare, name, Bool.and_true,
    ne_eq, not_false_eq_true, decide_true]
  decide

/-- The text of a system is that of its forms, each on a line. -/
theorem wilRewriteSystemToString_lines (rules : List WILRewriteRule) :
    (rules.flatMap fun rule => wilRuleToString doubleText rule ++ ['\n']) =
      Sexp.lines ['\n'] (rules.map (ruleForm doubleText)) := by
  induction rules with
  | nil => rfl
  | cons rule rest ih =>
    rw [List.flatMap_cons, ih, List.map_cons, Sexp.lines, ruleForm_render, List.append_assoc]

end Forms

/-! Loading. -/

/-- The words in front of the parts of a rule. -/
def ruleKeywords : List String := [":name", ":match", ":replace", ":when"]

/-- No keyword is a pattern. -/
theorem keyword_null : ∀ word ∈ ruleKeywords,
    wrsPatternFromSexpNode (.atom word.toList) = .null := by
  rw [ruleKeywords]
  simp only [List.forall_mem_cons]
  exact ⟨rfl, rfl, rfl, rfl, List.forall_mem_nil _⟩

section Load

variable {doubleText : DoubleBits → List Char} {rule : WILRewriteRule} {strtod : List Char → BitVec 64}

/-- The form of a pattern that the loader builds is no keyword. -/
theorem toSexp_ne_keyword {pattern : WILPattern} (loaded : pattern.loaded = true) {word : String}
    (member : word ∈ ruleKeywords) :
    wrsAtomIs (some (pattern.toSexp doubleText)) word = false := by
  have back := @wrsPatternFromSexpNode_toSexp doubleText _ loaded
  cases form : pattern.toSexp doubleText with
  | list children => rfl
  | atom text =>
    rw [wrsAtomIs, decide_eq_false_iff_not]
    rintro rfl
    -- It would be read as the null pattern, whose form is another word.
    rw [form, keyword_null word member] at back
    subst back
    rw [WILPattern.toSexp, Sexp.atom.injEq] at form
    have other : ∀ word ∈ ruleKeywords, ['<', 'n', 'u', 'l', 'l', '>'] ≠ word.toList := by decide
    exact other word member form

/-- A list of trees is made plain tree by tree. -/
theorem wrsPlainTrees_eq_map (nodes : List Node) : wrsPlainTrees nodes = nodes.map wrsPlainTree := by
  induction nodes with
  | nil => rfl
  | cons node rest ih => rw [wrsPlainTrees, ih, List.map_cons]

/-- What the loader makes of the form of a rule. -/
theorem wrsRuleFromTree_form (printable : rule.Printable) {node : Node}
    (plain : wrsPlainTree node = ruleForm doubleText rule) :
    ∃ guard, (guard.isSome = true ↔ rule.name = ":when") ∧ wrsRuleFromTree strtod node =
      some { wilRuleCreateSimple rule.name (if rule.name = ":match" then .null else rule.lhs)
        (if rule.name = ":replace" then .null else rule.rhs) with guard } := by
  cases node with
  | atom kind text => cases plain
  -- The form has seven parts, the word in front and three keywords with their values.
  | list children =>
    rw [wrsPlainTree, ruleForm, Sexp.list.injEq, wrsPlainTrees_eq_map] at plain
    simp only [List.map_eq_cons_iff, List.map_eq_nil_iff] at plain
    obtain ⟨word, _, rfl, word', key, _, rfl, key', name, _, rfl, name', key₂, _, rfl, key₂', lhs, _,
      rfl, lhs', key₃, _, rfl, key₃', rhs, _, rfl, rhs', rfl⟩ := plain
    -- The texts of the keywords and of the name are compared as strings.
    have atoms (node : Node) (own other : String) (same : wrsPlainTree node = .atom own.toList) :
        wirbleSexpAtomEquals (some node) other = decide (own = other) := by
      rw [wirbleSexpAtomEquals, Option.map_some, same, wrsAtomIs]
      simp only [String.toList_inj]
    -- A pattern is never printed as a keyword.
    have patterns (node : Node) (pattern : WILPattern) (loaded : pattern.loaded = true)
        (same : wrsPlainTree node = pattern.toSexp doubleText) {word : String}
        (member : word ∈ ruleKeywords) : wirbleSexpAtomEquals (some node) word = false := by
      rw [wirbleSexpAtomEquals, Option.map_some, same]
      exact toSexp_ne_keyword loaded member
    have front := atoms word "rule" "rule" word'
    -- A keyword is found in front of its value, or where the name is spelled like it.
    have found (keyword : String) (member : keyword ∈ ruleKeywords) :
        wirbleSexpFindKeyword keyword [key, name, key₂, lhs, key₃, rhs] =
          if ":name" = keyword then some name
          else if rule.name = keyword then some key₂
          else if ":match" = keyword then some lhs
          else if ":replace" = keyword then some rhs
          else none := by
      simp only [wirbleSexpFindKeyword, atoms key ":name" keyword key',
        atoms name rule.name keyword name', atoms key₂ ":match" keyword key₂',
        atoms key₃ ":replace" keyword key₃', patterns lhs _ printable.lhs lhs' member,
        patterns rhs _ printable.rhs rhs' member, List.head?_cons, decide_eq_true_eq,
        Bool.false_eq_true, if_false]
    -- The keywords are looked up one after the other.
    have named := found ":name" (by decide)
    have matched := found ":match" (by decide)
    have replace := found ":replace" (by decide)
    have condition := found ":when" (by decide)
    rw [if_pos rfl] at named
    rw [if_neg (by decide), if_pos rfl, ← apply_ite some] at matched
    rw [if_neg (by decide), if_neg (show ¬ ":match" = ":replace" by decide), if_pos rfl,
      ← apply_ite some] at replace
    rw [if_neg (by decide), if_neg (show ¬ ":match" = ":when" by decide),
      if_neg (show ¬ ":replace" = ":when" by decide)] at condition
    -- A keyword that is taken for a pattern is the null pattern.
    have key₂Null : wrsPatternFromSexpNode (wrsPlainTree key₂) = .null := by
      rw [key₂']
      exact keyword_null ":match" (by decide)
    have lhsPattern : wrsPatternFromSexpNode (wrsPlainTree lhs) = rule.lhs := by
      rw [lhs', wrsPatternFromSexpNode_toSexp printable.lhs]
    have rhsPattern : wrsPatternFromSexpNode (wrsPlainTree rhs) = rule.rhs := by
      rw [rhs', wrsPatternFromSexpNode_toSexp printable.rhs]
    -- The condition is the second keyword, if the name is taken for one.
    refine ⟨(if rule.name = ":when" then some key₂ else none).map (wrsSexprFromTree strtod), ?_, ?_⟩
    · rw [Option.isSome_map]
      split <;> simp [*]
    · simp only [wrsRuleFromTree, wirbleSexpExtractRule, List.head?_cons, front, List.tail_cons,
        decide_true, if_true, named, matched, replace, condition, Option.isSome_some,
        Bool.and_self, Option.map_some, name', sexpText, Option.getD_some, String.ofList_toList,
        wrsPatternFromPart, apply_ite wrsPlainTree, apply_ite wrsPatternFromSexpNode, key₂Null,
        lhsPattern, rhsPattern]

/-- The loader gives the rule back exactly if its name is no keyword that matters. -/
theorem wrsRuleFromTree_plain_iff (printable : rule.Printable) {node : Node}
    (plain : wrsPlainTree node = ruleForm doubleText rule) :
    ∃ loaded, wrsRuleFromTree strtod node = some loaded ∧ (loaded = rule.plain ↔ rule.Apart) := by
  obtain ⟨guard, condition, made⟩ := @wrsRuleFromTree_form doubleText rule strtod printable _ plain
  refine ⟨_, made, ?_⟩
  -- The loaded rule differs in its patterns and its guard at most.
  simp only [WILRewriteRule.plain, wilRuleCreateSimple, WILRewriteRule.mk.injEq, true_and, and_true]
  constructor
  -- A name that is a keyword moves the value that is found.
  · rintro ⟨lhs, rhs, unguarded⟩
    refine ⟨fun when => ?_, fun matched => ?_, fun replace => ?_⟩
    · rw [unguarded] at condition
      exact absurd (condition.mpr when) (by simp)
    · rw [if_pos matched] at lhs
      exact lhs.symm
    · rw [if_pos replace] at rhs
      exact rhs.symm
  -- Any other name leaves the values where they are.
  · intro apart
    refine ⟨?_, ?_, ?_⟩
    · split
      · rename_i matched
        exact (apart.matched matched).symm
      · rfl
    · split
      · rename_i replace
        exact (apart.replace replace).symm
      · rfl
    · cases guard with
      | none => rfl
      | some condition' => exact absurd (condition.mp rfl) apart.condition

/-- Forms of rules leave the strategy of a file alone. -/
theorem foldl_wrsFileLoadForm_strategy {forms : List Node} {rules : List WILRewriteRule}
    (printed : forms.map wrsPlainTree = rules.map (ruleForm doubleText)) (file : WRSFile) :
    (forms.foldl (wrsFileLoadForm strtod) file).strategy = file.strategy := by
  induction forms generalizing rules file with
  | nil => rfl
  | cons form forms ih =>
    cases rules with
    | nil => cases printed
    | cons rule rules =>
      rw [List.map_cons, List.map_cons, List.cons.injEq] at printed
      rw [List.foldl_cons, ih printed.2]
      -- Neither an atom nor a rule names a strategy.
      cases form with
      | atom kind text => rfl
      | list children =>
        rw [wrsFileLoadForm]
        split
        · split <;> rfl
        · -- The first word of the form is that of a rule.
          rename_i other
          rw [wrsPlainTree, ruleForm, Sexp.list.injEq, wrsPlainTrees_eq_map,
            List.map_eq_cons_iff] at printed
          obtain ⟨⟨word, rest, rfl, same, -⟩, -⟩ := printed
          refine absurd ?_ other
          rw [List.head?_cons, wirbleSexpAtomEquals, Option.map_some, same, wrsAtomIs]
          exact decide_eq_true rfl

/-- The rules of printed forms are those that were printed, exactly if their names are apart from
the keywords. -/
theorem filterMap_wrsRuleFromTree {forms : List Node} {rules : List WILRewriteRule}
    (printable : ∀ rule ∈ rules, rule.Printable)
    (printed : forms.map wrsPlainTree = rules.map (ruleForm doubleText)) :
    (forms.filterMap (wrsRuleFromTree strtod)).length = rules.length ∧
      (forms.filterMap (wrsRuleFromTree strtod) = rules.map (·.plain) ↔
        ∀ rule ∈ rules, rule.Apart) := by
  -- Induction on the rules, each of which gives one rule back.
  induction rules generalizing forms with
  | nil =>
    obtain rfl : forms = [] := List.map_eq_nil_iff.mp printed
    exact ⟨rfl, by simp⟩
  | cons rule rules ih =>
    rw [List.map_cons, List.map_eq_cons_iff] at printed
    obtain ⟨form, forms, rfl, first, others⟩ := printed
    obtain ⟨loaded, made, same⟩ := @wrsRuleFromTree_plain_iff doubleText rule strtod
      (printable rule List.mem_cons_self) _ first
    obtain ⟨count, rest⟩ := ih (fun other member => printable other (List.mem_cons_of_mem _ member))
      others
    -- The first form gives one rule, and the others give the rest.
    rw [List.filterMap_cons_some made]
    refine ⟨by rw [List.length_cons, List.length_cons, count], ?_⟩
    rw [List.map_cons, List.cons.injEq, same, rest, List.forall_mem_cons]

end Load

/-! Printed systems are loaded. -/

/-- The text of bare expressions has neither quotes nor semicolons. -/
theorem lines_special {nodes : List Sexp} (bare : Sexp.bareAll nodes = true) :
    ∀ char ∈ Sexp.lines ['\n'] nodes, Sexp.isSpecial char = false := by
  induction nodes with
  | nil => exact List.forall_mem_nil _
  | cons node nodes ih =>
    rw [Sexp.bareAll, Bool.and_eq_true] at bare
    rw [Sexp.lines]
    simp only [List.forall_mem_append, List.forall_mem_singleton]
    exact ⟨render_special bare.1, rfl, ih bare.2⟩

/-- Printing a system and loading the text gives a file with as many rules, in the same order. They
are the same rules, without conditions, counters and switches, exactly if no rule is named as a
keyword that the loader takes for one of its parts. -/
theorem wilRewriteSystemToString_reads_back (doubleText : DoubleBits → List Char)
    (strtod : List Char → BitVec 64) {parseSexp : List Char → Except Int Node}
    (usual : UsualReader fun text => (parseSexp text).toOption.map wrsPlainTree)
    (sys : WILRewriteSystem) (printable : ∀ rule ∈ sys.rules, rule.Printable) :
    ∃ file, wrsFileLoadFromString strtod parseSexp (wilRewriteSystemToString doubleText sys) =
        .ok file ∧ file.strategy = .innermost ∧ file.rules.length = sys.rules.length ∧
      (file.rules = sys.rules.map (·.plain) ↔ ∀ rule ∈ sys.rules, rule.Apart) := by
  have bare : Sexp.bareAll (sys.rules.map (ruleForm doubleText)) = true := by
    rw [Sexp.bareAll_iff, List.forall_mem_map]
    exact fun rule member => (printable rule member).form_bare
  have line : ∀ char ∈ ['\n'], Sexp.isSpace char = true := List.forall_mem_singleton.mpr rfl
  have text : wirbleSexpWrapInput (wilRewriteSystemToString doubleText sys) =
      '(' :: (['\n'] ++ (Sexp.lines ['\n'] (sys.rules.map (ruleForm doubleText)) ++
        (['\n'] ++ ')' :: ['\n']))) := by
    rw [wilRewriteSystemToString, wilRewriteSystemToString_lines, wirbleSexpWrapInput_lines]
    simp
  -- The library reads the list of all forms.
  have read := usual _ _ ?_ (Sexp.read_lines bare (List.cons_ne_nil _ _) line line line line)
  · rw [← text] at read
    dsimp only at read
    cases result : parseSexp (wirbleSexpWrapInput (wilRewriteSystemToString doubleText sys)) with
    | error errno =>
      rw [result] at read
      cases read
    | ok parsed =>
      rw [result] at read
      have plain := Option.some.inj read
      cases parsed with
      -- An atom is no list of forms.
      | atom kind word => cases plain
      | list elements =>
        rw [wrsPlainTree, Sexp.list.injEq, wrsPlainTrees_eq_map] at plain
        obtain ⟨tree, built, forms, -⟩ := @parseCstr_list parseSexp (some "<string>") _ _ result
        obtain ⟨count, same⟩ := @filterMap_wrsRuleFromTree doubleText strtod _ _ printable plain
        -- The file has one rule for each form.
        refine ⟨wrsFileLoadTree strtod tree, ?_, ?_, ?_⟩
        · rw [wrsFileLoadFromString, built]
          rfl
        · rw [wrsFileLoadTree, forms]
          exact foldl_wrsFileLoadForm_strategy plain _
        · rw [wrsFileLoadTree_rules, forms]
          exact ⟨count, same⟩
  · -- Around the forms there are only parentheses and line breaks.
    intro char member
    simp only [List.mem_cons, List.mem_append, List.not_mem_nil, or_false] at member
    rcases member with rfl | rfl | inForms | rfl | rfl | rfl
    · rfl
    · rfl
    · exact lines_special bare char inForms
    · rfl
    · rfl
    · rfl

mutual

/-- A tree of bare atoms. -/
def bareTree : Sexp → Node
  | .atom text => .atom .bare text
  | .list children => .list (bareTrees children)

def bareTrees : List Sexp → List Node
  | [] => []
  | child :: rest => bareTree child :: bareTrees rest

end

mutual

/-- A bare tree made from a form gives the form back. -/
theorem wrsPlainTree_bareTree : ∀ form : Sexp, wrsPlainTree (bareTree form) = form
  | .atom _ => rfl
  | .list children => congrArg Sexp.list (wrsPlainTrees_bareTrees children)

/-- Bare trees made from forms give the forms back. -/
theorem wrsPlainTrees_bareTrees : ∀ forms : List Sexp, wrsPlainTrees (bareTrees forms) = forms
  | [] => rfl
  | form :: rest => congrArg₂ List.cons (wrsPlainTree_bareTree form) (wrsPlainTrees_bareTrees rest)

end

/-- A reader of bare atoms and lists. -/
def bareParser (text : List Char) : Except Int Node :=
  match bareReader text with
  | some form => .ok (bareTree form)
  | none => .error 1

/-- The bare parser reads as usual readers do. -/
theorem bareParser_usual :
    UsualReader fun text => (bareParser text).toOption.map wrsPlainTree := by
  intro text form _ read
  have found : bareReader text = some form := by rw [bareReader, read]
  simp only [bareParser, found]
  exact congrArg some (wrsPlainTree_bareTree form)

/-- The stock arithmetic rules survive. -/
theorem wilRewriteSystemToString_reads_back_arithmetic :
    ∃ file, wrsFileLoadFromString (fun _ => 0) bareParser (wilRewriteSystemToString (fun _ => [])
        (wrsFileApplyToSystem arithmeticRules .innermost (wilRewriteSystemCreate (.empty 0)))) =
          .ok file ∧
      file.rules = (wrsFileApplyToSystem arithmeticRules .innermost
        (wilRewriteSystemCreate (.empty 0))).rules.map (·.plain) := by
  -- Each rule is printable, and none has a keyword for its name.
  have checks : ∀ rule ∈ (wrsFileApplyToSystem arithmeticRules .innermost
      (wilRewriteSystemCreate (.empty 0))).rules, (rule.name ≠ "" ∧
        rule.name.toList.all Sexp.isBare = true ∧ rule.lhs.loaded = true ∧
          rule.rhs.loaded = true) ∧ rule.name ∉ ruleKeywords := by decide +kernel
  obtain ⟨file, loaded, -, -, same⟩ := wilRewriteSystemToString_reads_back (fun _ => [])
    (fun _ => 0) bareParser_usual (wrsFileApplyToSystem arithmeticRules .innermost
      (wilRewriteSystemCreate (.empty 0))) (fun rule member => by
        obtain ⟨⟨named, bare, lhs, rhs⟩, -⟩ := checks rule member
        exact ⟨named, bare, lhs, rhs⟩)
  refine ⟨file, loaded, same.mpr fun rule member => ?_⟩
  have other := (checks rule member).2
  -- No name is a keyword.
  refine ⟨fun when => ?_, fun matched => ?_, fun replace => ?_⟩
  · exact absurd (when ▸ other) (by decide)
  · exact absurd (matched ▸ other) (by decide)
  · exact absurd (replace ▸ other) (by decide)

end Wirble
