import Wirble.Library.Sexp

/-! S-expressions with quoted atoms, and what every usual reader makes of a text. -/

namespace QuotedSexp

open Sexp (isSpace isDelimiter isSpecial isBare Ends)

/-- How an atom is written. -/
inductive AtomKind where
  | bare | singleQuoted | doubleQuoted | binary
  deriving DecidableEq

/-- Atoms with the text that they stand for, and lists. -/
inductive Node where
  | atom (kind : AtomKind) (text : List Char)
  | list (children : List Node)

/-- The pieces of a text. -/
inductive Token where
  | opening
  | closing
  | atom (kind : AtomKind) (text : List Char)
  deriving DecidableEq

namespace Node

mutual

/-- The tokens of an expression. -/
def tokens : Node → List Token
  | atom kind text => [.atom kind text]
  | list children => .opening :: (tokensAll children ++ [.closing])

/-- The tokens of several expressions in a row. -/
def tokensAll : List Node → List Token
  | [] => []
  | child :: rest => child.tokens ++ tokensAll rest

end

end Node

/-! Splitting a text. -/

/-- What the next character belongs to, with the text of the atom so far. -/
inductive Mode where
  | between
  | word (text : List Char)
  | quoted (text : List Char)
  /-- Behind a backslash in a string. -/
  | escaped (text : List Char)

/-- The tokens at the beginning of a text that are beyond doubt, and whether they are all. -/
structure Scan where
  tokens : List Token
  whole : Bool

namespace Scan

/-- The text is not split any further. -/
def stop : Scan := ⟨[], false⟩

/-- A token in front of the others. -/
def emit (token : Token) (later : Scan) : Scan := { later with tokens := token :: later.tokens }

/-- Several tokens in front of the others. -/
def emitAll (tokens : List Token) (later : Scan) : Scan :=
  { later with tokens := tokens ++ later.tokens }

/-- Tokens emitted in two parts are emitted as a whole. -/
theorem emitAll_append (tokens tokens' : List Token) (later : Scan) :
    later.emitAll (tokens ++ tokens') = (later.emitAll tokens').emitAll tokens := by
  simp [emitAll]

end Scan

/-- Split a text at parentheses, white space and double quotes. A quote behind a backslash belongs
to its string. Other quotes, comments and other uses of the backslash in a string are left open. -/
def scan : Mode → List Char → Scan
  | .between, [] => ⟨[], true⟩
  | .word text, [] => ⟨[.atom .bare text], true⟩
  | .quoted _, [] | .escaped _, [] => .stop
  | .between, char :: rest =>
    if char = '(' then (scan .between rest).emit .opening
    else if char = ')' then (scan .between rest).emit .closing
    else if isSpace char then scan .between rest
    else if char = '"' then scan (.quoted []) rest
    else if isSpecial char then .stop
    else scan (.word [char]) rest
  | .word text, char :: rest =>
    if char = '(' then ((scan .between rest).emit .opening).emit (.atom .bare text)
    else if char = ')' then ((scan .between rest).emit .closing).emit (.atom .bare text)
    else if isSpace char then (scan .between rest).emit (.atom .bare text)
    else if isSpecial char then .stop
    else scan (.word (text ++ [char])) rest
  | .quoted text, char :: rest =>
    if char = '"' then (scan .between rest).emit (.atom .doubleQuoted text)
    else if char = '\\' then scan (.escaped text) rest
    else scan (.quoted (text ++ [char])) rest
  | .escaped text, char :: rest =>
    if char = '"' then scan (.quoted (text ++ ['"'])) rest else .stop

/-! Reading. -/

/-- Read one token. The stack holds the elements read so far of every open list, the innermost
first and the forms outside of all lists last. -/
def place : List (List Node) → Token → Option (List (List Node))
  | stack, .opening => some ([] :: stack)
  | inner :: outer :: stack, .closing => some ((outer ++ [.list inner]) :: stack)
  | inner :: stack, .atom kind text => some ((inner ++ [.atom kind text]) :: stack)
  | _, _ => none

/-- The only form of a text, if its parentheses match and its tokens are beyond doubt. -/
def read (text : List Char) : Option Node :=
  if (scan .between text).whole then
    match (scan .between text).tokens.foldlM place [[]] with
    | some [[form]] => some form
    | _ => none
  else none

/-- A reader that returns the form of every text whose tokens are beyond doubt, and whose tokens
agree with those of other texts as far as these are. -/
structure UsualReader (parse : List Char → Option Node) : Prop where
  reads : ∀ text (form : Node), scan .between text = ⟨form.tokens, true⟩ → parse text = some form
  inOrder : ∀ text form, parse text = some form →
    (scan .between text).tokens <+: form.tokens ∨ form.tokens <+: (scan .between text).tokens

mutual

/-- The tokens of an expression add it to the elements of the innermost list. -/
theorem place_tokens : ∀ (node : Node) (inner : List Node) (stack : List (List Node)),
    node.tokens.foldlM place (inner :: stack) = some ((inner ++ [node]) :: stack)
  | .atom _ _, _, _ => rfl
  | .list children, inner, stack => by
    -- The list is closed when its children have been read.
    have inside := place_tokensAll children [] (inner :: stack)
    rw [Node.tokens, List.foldlM_cons, place, Option.bind_eq_bind, Option.bind_some,
      List.foldlM_append, inside, Option.bind_eq_bind, Option.bind_some, List.nil_append]
    rfl

/-- Placing the tokens of any trees completes the trees. -/
theorem place_tokensAll : ∀ (nodes inner : List Node) (stack : List (List Node)),
    (Node.tokensAll nodes).foldlM place (inner :: stack) = some ((inner ++ nodes) :: stack)
  | [], inner, stack => by
    rw [List.append_nil]
    rfl
  | node :: nodes, inner, stack => by
    rw [Node.tokensAll, List.foldlM_append, place_tokens node inner stack, Option.bind_eq_bind,
      Option.bind_some, place_tokensAll nodes (inner ++ [node]) stack, List.append_assoc]
    rfl

end

/-- The tokens of a concatenation are those of its parts. -/
theorem tokensAll_append (nodes nodes' : List Node) :
    Node.tokensAll (nodes ++ nodes') = Node.tokensAll nodes ++ Node.tokensAll nodes' := by
  induction nodes with
  | nil => rfl
  | cons node nodes ih => simp [Node.tokensAll, ih]

/-- The tokens that a stack was read from, without those of the forms outside of all lists. -/
def openTokens : List (List Node) → List Token
  | [] => []
  | [forms] => Node.tokensAll forms
  | inner :: stack => openTokens stack ++ .opening :: Node.tokensAll inner

/-- Reading a token keeps the tokens that were read before. -/
theorem openTokens_place {stack stack' : List (List Node)} {token : Token}
    (placed : place stack token = some stack') (some : stack ≠ []) :
    openTokens stack' = openTokens stack ++ [token] ∧ stack' ≠ [] := by
  -- The cases are those of the function that places a token.
  match stack, token, placed with
  | inner :: stack, .opening, placed =>
    obtain rfl := Option.some.inj placed
    exact ⟨by simp [openTokens, Node.tokensAll], List.cons_ne_nil _ _⟩
  | [inner, outer], .closing, placed =>
    obtain rfl := Option.some.inj placed
    exact ⟨by simp [openTokens, tokensAll_append, Node.tokensAll, Node.tokens],
      List.cons_ne_nil _ _⟩
  -- A closing token ends the innermost list, which becomes an element.
  | inner :: outer :: next :: stack, .closing, placed =>
    obtain rfl := Option.some.inj placed
    exact ⟨by simp [openTokens, tokensAll_append, Node.tokensAll, Node.tokens],
      List.cons_ne_nil _ _⟩
  | [inner], .atom kind text, placed =>
    obtain rfl := Option.some.inj placed
    exact ⟨by simp [openTokens, tokensAll_append, Node.tokensAll, Node.tokens],
      List.cons_ne_nil _ _⟩
  | inner :: next :: stack, .atom kind text, placed =>
    obtain rfl := Option.some.inj placed
    exact ⟨by simp [openTokens, tokensAll_append, Node.tokensAll, Node.tokens],
      List.cons_ne_nil _ _⟩
  | [], .opening, _ => exact absurd rfl some

/-- Placing tokens loses none of them. -/
theorem openTokens_foldlM (tokens : List Token) : ∀ {stack stack' : List (List Node)},
    tokens.foldlM place stack = some stack' → stack ≠ [] →
      openTokens stack' = openTokens stack ++ tokens := by
  induction tokens with
  | nil =>
    intro stack stack' placed _
    rw [← Option.some.inj placed, List.append_nil]
  | cons token tokens ih =>
    intro stack stack' placed some
    rw [List.foldlM_cons, Option.bind_eq_bind, Option.bind_eq_some_iff] at placed
    obtain ⟨middle, first, later⟩ := placed
    -- The first token is on the stack, and the others come behind it.
    obtain ⟨kept, filled⟩ := openTokens_place first some
    rw [ih later filled, kept, List.append_assoc]
    rfl

/-- The reader that gives up on every doubt is a usual one. -/
theorem usualReader_read : UsualReader read where
  reads text form scanned := by
    have placed := place_tokens form [] []
    rw [List.nil_append] at placed
    rw [read, scanned, if_pos rfl, placed]
  inOrder text form returned := by
    -- The tokens of the only form are all tokens of the text.
    unfold read at returned
    split at returned
    · split at returned
      · rename_i last placed
        obtain rfl := Option.some.inj returned
        have tokens := openTokens_foldlM _ placed (List.cons_ne_nil _ _)
        simp only [openTokens, Node.tokensAll, List.append_nil, List.nil_append] at tokens
        rw [tokens]
        exact .inl (List.prefix_refl _)
      · cases returned
    · cases returned

/-! Scanning what was written. -/

/-- White space between tokens is skipped. -/
theorem scan_space {char : Char} (space : isSpace char = true) (rest : List Char) :
    scan .between (char :: rest) = scan .between rest := by
  -- A space is no parenthesis.
  have opening : char ≠ '(' := by
    intro equal
    rw [equal] at space
    exact absurd space (by decide)
  have closing : char ≠ ')' := by
    intro equal
    rw [equal] at space
    exact absurd space (by decide)
  rw [scan, if_neg opening, if_neg closing, if_pos space]

/-- A bare character is neither a delimiter nor special. -/
theorem isBare_cases {char : Char} (bare : isBare char = true) :
    char ≠ '(' ∧ char ≠ ')' ∧ isSpace char = false ∧ isSpecial char = false := by
  simpa [isBare, isDelimiter, not_or, and_assoc] using bare

/-- Bare characters extend the current word. -/
theorem scan_word (text : List Char) (bare : text.all isBare = true) (rest word : List Char) :
    scan (.word word) (text ++ rest) = scan (.word (word ++ text)) rest := by
  induction text generalizing word with
  | nil => rw [List.append_nil, List.nil_append]
  | cons char text ih =>
    rw [List.all_cons, Bool.and_eq_true] at bare
    -- The first character is bare, so it joins the word.
    obtain ⟨opening, closing, space, special⟩ := isBare_cases bare.1
    rw [List.cons_append, scan, if_neg opening, if_neg closing, if_neg (by simp [space]),
      if_neg (by simp [special]), ih bare.2, List.append_assoc]
    rfl

/-- A delimiter ends the current word. -/
theorem scan_ends {rest : List Char} (ends : Ends rest) (word : List Char) :
    scan (.word word) rest = (scan .between rest).emit (.atom .bare word) := by
  cases rest with
  | nil => rfl
  | cons char rest =>
    have delimiter := ends char rfl
    simp only [isDelimiter, Bool.or_eq_true, decide_eq_true_eq] at delimiter
    -- The delimiter is a parenthesis or a space, which is scanned next.
    by_cases opening : char = '('
    · simp [scan, opening]
    · by_cases closing : char = ')'
      · simp [scan, closing]
      · have space : isSpace char = true := by simpa [opening, closing] using delimiter
        rw [scan_space space, scan, if_neg opening, if_neg closing, if_pos space]

/-- The first character of a bare word begins it. -/
theorem scan_bare {char : Char} (bare : isBare char = true) (rest : List Char) :
    scan .between (char :: rest) = scan (.word [char]) rest := by
  obtain ⟨opening, closing, space, special⟩ := isBare_cases bare
  -- A quote is special, and so not bare.
  have quote : char ≠ '"' := by
    intro equal
    rw [equal] at special
    exact absurd special (by decide)
  rw [scan, if_neg opening, if_neg closing, if_neg (by simp [space]), if_neg quote,
    if_neg (by simp [special])]

/-- A bare word before a delimiter is one token. -/
theorem scan_atom {text : List Char} (some : text ≠ []) (bare : text.all isBare = true)
    {rest : List Char} (ends : Ends rest) :
    scan .between (text ++ rest) = (scan .between rest).emit (.atom .bare text) := by
  cases text with
  | nil => exact absurd rfl some
  | cons char text =>
    rw [List.all_cons, Bool.and_eq_true] at bare
    rw [List.cons_append, scan_bare bare.1, scan_word text bare.2, scan_ends ends]
    rfl

/-- A string goes on to the first quote, if no backslash comes before it. -/
theorem scan_quoted {text : List Char} (plain : ∀ char ∈ text, char ≠ '"' ∧ char ≠ '\\')
    (rest word : List Char) :
    scan (.quoted word) (text ++ '"' :: rest) =
      (scan .between rest).emit (.atom .doubleQuoted (word ++ text)) := by
  induction text generalizing word with
  | nil => rw [List.nil_append, scan, if_pos rfl, List.append_nil]
  | cons char text ih =>
    -- The first character is neither a quote nor a backslash.
    rw [List.forall_mem_cons] at plain
    rw [List.cons_append, scan, if_neg plain.1.1, if_neg plain.1.2, ih plain.2, List.append_assoc]
    rfl

/-! Lists that differ. -/

/-- The lists have different elements at some position. -/
def Diverges {α : Type*} (list list' : List α) : Prop :=
  ∃ (index : Nat) (first second : α), list[index]? = some first ∧ list'[index]? = some second ∧
    first ≠ second

section Diverges

variable {α : Type*} {list list' : List α}

/-- Lists with different first entries diverge. -/
theorem diverges_head {first second : α} (different : first ≠ second) :
    Diverges (first :: list) (second :: list') :=
  ⟨0, first, second, rfl, rfl, different⟩

/-- Lists that diverge still do behind a common front. -/
theorem Diverges.append_left (diverges : Diverges list list') (front : List α) :
    Diverges (front ++ list) (front ++ list') := by
  obtain ⟨index, first, second, found, found', different⟩ := diverges
  refine ⟨front.length + index, first, second, ?_, ?_, different⟩
  · rw [List.getElem?_append_right (by omega), Nat.add_sub_cancel_left]
    exact found
  · rw [List.getElem?_append_right (by omega), Nat.add_sub_cancel_left]
    exact found'

/-- Of two lists that differ somewhere neither is the beginning of the other. -/
theorem Diverges.apart (diverges : Diverges list list') :
    ¬ (list <+: list' ∨ list' <+: list) := by
  obtain ⟨index, first, second, found, found', different⟩ := diverges
  intro either
  rcases either with ⟨rest, same⟩ | ⟨rest, same⟩
  · rw [← same, List.getElem?_append_left (List.getElem?_eq_some_iff.mp found).1, found] at found'
    exact different (Option.some.inj found')
  · rw [← same, List.getElem?_append_left (List.getElem?_eq_some_iff.mp found').1, found'] at found
    exact different (Option.some.inj found).symm

end Diverges

end QuotedSexp
