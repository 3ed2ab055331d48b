import Mathlib.Data.List.Basic

/-! S-expressions of bare atoms: how they are written, and that reading gives them back. -/

/-- Atoms and lists. -/
inductive Sexp where
  | atom (text : List Char)
  | list (children : List Sexp)

namespace Sexp

/-- White space as the C library counts it. -/
def isSpace (char : Char) : Bool :=
  char = ' ' || char = '\t' || char = '\n' || char = '\x0b' || char = '\x0c' || char = '\r'

/-- The characters that end an atom. -/
def isDelimiter (char : Char) : Bool := char = '(' || char = ')' || isSpace char

/-- The characters that change how a text is read. -/
def isSpecial (char : Char) : Bool := char = '"' || char = '\'' || char = ';'

/-- The characters of bare atoms. -/
def isBare (char : Char) : Bool := !isDelimiter char && !isSpecial char

mutual

/-- All atoms are bare. -/
def bare : Sexp → Bool
  | atom text => text ≠ [] && text.all isBare
  | list children => bareAll children

/-- All atoms of several expressions are bare. -/
def bareAll : List Sexp → Bool
  | [] => true
  | child :: rest => child.bare && bareAll rest

end

/-- A list of trees is bare if every tree of it is. -/
theorem bareAll_iff {nodes : List Sexp} : bareAll nodes = true ↔ ∀ node ∈ nodes, node.bare = true := by
  induction nodes with
  | nil => simp [bareAll]
  | cons node nodes ih => rw [bareAll, Bool.and_eq_true, ih, List.forall_mem_cons]

/-! Writing. -/

mutual

/-- The text of an expression, with one space between the elements of a list. -/
def render : Sexp → List Char
  | atom text => text
  | list [] => ['(', ')']
  | list (first :: rest) => '(' :: (first.render ++ (renderRest rest ++ [')']))

/-- The text of the later elements of a list. -/
def renderRest : List Sexp → List Char
  | [] => []
  | child :: rest => ' ' :: (child.render ++ renderRest rest)

end

/-! Reading. -/

/-- The pieces of a text. -/
inductive Token where
  | opening
  | closing
  | word (text : List Char)

/-- The word collected so far, if there is one. -/
def flush (word : List Char) : List Token := if word = [] then [] else [.word word]

/-- Split a text at parentheses and white space. The second argument is the current word. -/
def tokens : List Char → List Char → List Token
  | [], word => flush word
  | char :: rest, word =>
    if char = '(' then flush word ++ .opening :: tokens rest []
    else if char = ')' then flush word ++ .closing :: tokens rest []
    else if isSpace char then flush word ++ tokens rest []
    else tokens rest (word ++ [char])

/-- Read one token. The stack holds the elements read so far of every open list, the innermost
first and the forms outside of all lists last. -/
def place : List (List Sexp) → Token → Option (List (List Sexp))
  | stack, .opening => some ([] :: stack)
  | inner :: outer :: stack, .closing => some ((outer ++ [list inner]) :: stack)
  | inner :: stack, .word text => some ((inner ++ [atom text]) :: stack)
  | _, _ => none

/-- The forms of a text, if its parentheses match. -/
def read (text : List Char) : Option (List Sexp) :=
  match (tokens text []).foldlM place [[]] with
  | some [forms] => some forms
  | _ => none

/-! Reading what was written. -/

mutual

/-- The tokens of an expression. -/
def toTokens : Sexp → List Token
  | atom text => [.word text]
  | list children => .opening :: (toTokensAll children ++ [.closing])

/-- The tokens of several expressions in a row. -/
def toTokensAll : List Sexp → List Token
  | [] => []
  | child :: rest => child.toTokens ++ toTokensAll rest

end

/-- The text is empty or begins with a character that ends an atom. -/
def Ends (text : List Char) : Prop := ∀ char, text.head? = some char → isDelimiter char = true

/-- A delimiter ends the current word. -/
theorem tokens_ends {rest : List Char} (ends : Ends rest) (word : List Char) :
    tokens rest word = flush word ++ tokens rest [] := by
  cases rest with
  | nil => simp [tokens, flush]
  | cons char rest =>
    have delimiter := ends char rfl
    -- One of the three branches that flush the word is taken.
    simp only [isDelimiter, Bool.or_eq_true, decide_eq_true_eq] at delimiter
    rw [tokens, tokens]
    rcases delimiter with (rfl | rfl) | space
    · simp [flush]
    · simp [flush]
    · simp [space, flush]
      split <;> split <;> rfl

/-- The characters of an atom join the current word. -/
theorem tokens_bare (text : List Char) (bare : text.all isBare = true) (rest word : List Char) :
    tokens (text ++ rest) word = tokens rest (word ++ text) := by
  induction text generalizing word with
  | nil => simp
  | cons char text ih =>
    -- No character of the atom is a delimiter, so each is added to the word.
    obtain ⟨first, later⟩ := Bool.and_eq_true_iff.mp bare
    simp only [isBare, isDelimiter, Bool.and_eq_true, Bool.not_eq_true', Bool.or_eq_false_iff,
      decide_eq_false_iff_not] at first
    rw [List.cons_append, tokens, if_neg first.1.1.1, if_neg first.1.1.2,
      if_neg (by simp [first.1.2]), ih later, List.append_assoc, List.singleton_append]

/-- What follows an element of a list ends its last atom. -/
theorem ends_renderRest (nodes : List Sexp) {rest : List Char} (ends : Ends rest) :
    Ends (renderRest nodes ++ rest) := by
  cases nodes with
  | nil => simpa [renderRest] using ends
  | cons node nodes =>
    -- A later element begins with a blank.
    intro char same
    obtain rfl : ' ' = char := by simpa [renderRest] using same
    rfl

mutual

/-- Splitting the text of an expression gives its tokens. -/
theorem tokens_render : ∀ {node : Sexp}, node.bare = true → ∀ {rest : List Char}, Ends rest →
    tokens (node.render ++ rest) [] = node.toTokens ++ tokens rest []
  | atom text, bare, rest, ends => by
    -- An atom ends where its word does.
    simp only [Sexp.bare, Bool.and_eq_true, decide_eq_true_eq] at bare
    rw [render, tokens_bare text bare.2, List.nil_append, tokens_ends ends, flush, if_neg bare.1]
    rfl
  | list [], _, rest, _ => by simp [render, tokens, flush, toTokens, toTokensAll]
  | list (first :: rest), bare, after, _ => by
    simp only [Sexp.bare, bareAll, Bool.and_eq_true] at bare
    -- The closing parenthesis ends the last word inside.
    have closed : Ends (')' :: after) := by
      intro char same
      cases same
      rfl
    have inner := tokens_render bare.1 (ends_renderRest rest closed)
    rw [tokens_renderRest bare.2 closed] at inner
    simp [render, toTokens, toTokensAll, tokens, flush, inner]

/-- Splitting the text of the later elements of a list gives their tokens. -/
theorem tokens_renderRest : ∀ {nodes : List Sexp}, bareAll nodes = true → ∀ {rest : List Char},
    Ends rest → tokens (renderRest nodes ++ rest) [] = toTokensAll nodes ++ tokens rest []
  | [], _, rest, _ => by simp [renderRest, toTokensAll]
  | node :: nodes, bare, rest, ends => by
    simp only [bareAll, Bool.and_eq_true] at bare
    have inner := tokens_render bare.1 (ends_renderRest nodes ends)
    rw [tokens_renderRest bare.2 ends] at inner
    simp [renderRest, toTokensAll, tokens, flush, isSpace, inner]

end

mutual

/-- The tokens of an expression append it to the innermost open list. -/
theorem place_toTokens : ∀ (node : Sexp) (inner : List Sexp) (stack : List (List Sexp)),
    node.toTokens.foldlM place (inner :: stack) = some ((inner ++ [node]) :: stack)
  | atom text, inner, stack => by simp [toTokens, place]
  | list children, inner, stack => by
    -- The children are appended to a list of their own, which is closed at the end.
    have below := place_toTokensAll children [] (inner :: stack)
    rw [toTokens, List.foldlM_cons]
    simp only [place, Option.bind_eq_bind, Option.bind_some, List.foldlM_append, below,
      List.nil_append, List.foldlM_cons, List.foldlM_nil]
    rfl

/-- The tokens of several expressions append them in order. -/
theorem place_toTokensAll : ∀ (nodes inner : List Sexp) (stack : List (List Sexp)),
    (toTokensAll nodes).foldlM place (inner :: stack) = some ((inner ++ nodes) :: stack)
  | [], inner, stack => by simp [toTokensAll]
  | node :: nodes, inner, stack => by
    -- The first expression is appended, and the others behind it.
    have first := place_toTokens node inner stack
    have rest := place_toTokensAll nodes (inner ++ [node]) stack
    rw [toTokensAll, List.foldlM_append, first]
    simp only [Option.bind_eq_bind, Option.bind_some, rest, List.append_assoc,
      List.singleton_append]

end

/-- White space before a text has no tokens. -/
theorem tokens_space (space rest : List Char) (all : ∀ char ∈ space, isSpace char = true) :
    tokens (space ++ rest) [] = tokens rest [] := by
  induction space with
  | nil => rfl
  | cons char space ih =>
    have own := all char List.mem_cons_self
    have later := ih fun other member => all other (List.mem_cons_of_mem _ member)
    rw [List.cons_append, tokens, later]
    -- White space is no parenthesis, and there is no word to flush.
    rw [if_neg (by rintro rfl; cases own), if_neg (by rintro rfl; cases own), if_pos own]
    rfl

/-- Reading an expression that stands in parentheses, with any white space around it. -/
theorem read_wrapped {node : Sexp} (bare : node.bare = true) {front back last : List Char}
    (before : ∀ char ∈ front, isSpace char = true) (after : ∀ char ∈ back, isSpace char = true)
    (final : ∀ char ∈ last, isSpace char = true) :
    read ('(' :: (front ++ (node.render ++ (back ++ ')' :: last)))) = some [list [node]] := by
  have ends : Ends (back ++ ')' :: last) := by
    intro char first
    cases back with
    | nil =>
      cases first
      rfl
    | cons space back =>
      cases first
      simp [isDelimiter, after char List.mem_cons_self]
  have nothing : tokens last [] = [] := by
    have none := tokens_space last [] final
    rwa [List.append_nil] at none
  -- The tokens are those of the expression between two parentheses.
  have inner : tokens (front ++ (node.render ++ (back ++ ')' :: last))) [] =
      node.toTokens ++ [.closing] := by
    rw [tokens_space front _ before, tokens_render bare ends, tokens_space back _ after]
    simp [tokens, flush, nothing]
  have split : tokens ('(' :: (front ++ (node.render ++ (back ++ ')' :: last)))) [] =
      .opening :: (node.toTokens ++ [.closing]) := by
    rw [tokens, if_pos rfl, inner]
    rfl
  -- Placing them one after the other builds the list.
  rw [read, split, List.foldlM_cons]
  simp only [place, Option.bind_eq_bind, Option.bind_some, List.foldlM_append,
    place_toTokens, List.foldlM_cons, List.foldlM_nil]
  rfl

/-- Expressions one after the other, each with some text behind it. -/
def lines (gap : List Char) : List Sexp → List Char
  | [] => []
  | node :: rest => node.render ++ (gap ++ lines gap rest)

/-- Splitting expressions with white space behind each of them gives the tokens of all. -/
theorem tokens_lines {gap : List Char} (some : gap ≠ [])
    (space : ∀ char ∈ gap, isSpace char = true) {nodes : List Sexp} (bare : bareAll nodes = true)
    (rest : List Char) :
    tokens (lines gap nodes ++ rest) [] = toTokensAll nodes ++ tokens rest [] := by
  induction nodes with
  | nil => rfl
  | cons node nodes ih =>
    simp only [bareAll, Bool.and_eq_true] at bare
    obtain ⟨char, gap', rfl⟩ := List.exists_cons_of_ne_nil some
    -- The first character of the gap ends the last atom.
    have ends : Ends (char :: gap' ++ (lines (char :: gap') nodes ++ rest)) := by
      intro first same
      cases same
      simp [isDelimiter, space char List.mem_cons_self]
    rw [lines, List.append_assoc, List.append_assoc, tokens_render bare.1 ends,
      tokens_space _ _ space, ih bare.2, toTokensAll, List.append_assoc]

/-- Reading expressions with white space behind each of them, in parentheses. -/
theorem read_lines {nodes : List Sexp} (bare : bareAll nodes = true) {gap front back last : List Char}
    (some : gap ≠ []) (space : ∀ char ∈ gap, isSpace char = true)
    (before : ∀ char ∈ front, isSpace char = true) (after : ∀ char ∈ back, isSpace char = true)
    (final : ∀ char ∈ last, isSpace char = true) :
    read ('(' :: (front ++ (lines gap nodes ++ (back ++ ')' :: last)))) = .some [list nodes] := by
  -- What follows the expression is white space.
  have nothing : tokens last [] = [] := by
    have none := tokens_space last [] final
    rwa [List.append_nil] at none
  have inner : tokens (front ++ (lines gap nodes ++ (back ++ ')' :: last))) [] =
      toTokensAll nodes ++ [.closing] := by
    rw [tokens_space front _ before, tokens_lines some space bare, tokens_space back _ after]
    simp [tokens, flush, nothing]
  -- The text is an opening parenthesis and the tokens inside.
  have split : tokens ('(' :: (front ++ (lines gap nodes ++ (back ++ ')' :: last)))) [] =
      .opening :: (toTokensAll nodes ++ [.closing]) := by
    rw [tokens, if_pos rfl, inner]
    rfl
  rw [read, split, List.foldlM_cons]
  simp only [place, Option.bind_eq_bind, Option.bind_some, List.foldlM_append,
    place_toTokensAll, List.nil_append, List.foldlM_cons, List.foldlM_nil]
  rfl

end Sexp
