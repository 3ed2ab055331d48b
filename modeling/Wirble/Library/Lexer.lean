import Wirble.Library.QuotedSexp

/-! Readers that return the first form of a text, over any way of splitting texts. -/

namespace QuotedSexp

open Sexp (isSpace isDelimiter)

/-! Nesting. -/

/-- The number of open lists behind the tokens, unless they close more lists than there are. -/
def depth : Nat → List Token → Option Nat
  | count, [] => some count
  | count, .opening :: rest => depth (count + 1) rest
  | count, .atom _ _ :: rest => depth count rest
  | 0, .closing :: _ => none
  | count + 1, .closing :: rest => depth count rest

/-- Every list that is opened is closed, and no other. -/
def Balanced (tokens : List Token) : Prop := depth 0 tokens = some 0

instance (tokens : List Token) : Decidable (Balanced tokens) :=
  inferInstanceAs (Decidable (_ = _))

/-- Every list that is closed has been opened. -/
def Opened (tokens : List Token) : Prop := (depth 0 tokens).isSome = true

instance (tokens : List Token) : Decidable (Opened tokens) :=
  inferInstanceAs (Decidable (_ = _))

/-- Tokens that close too many lists are balanced up to the first one that does. -/
theorem depth_eq_none {tokens : List Token} {count : Nat} (surplus : depth count tokens = none) :
    ∃ before after, tokens = before ++ .closing :: after ∧ depth count before = some 0 := by
  -- The induction is on the tokens, and the number of open lists changes with them.
  induction tokens generalizing count with
  | nil => cases surplus
  | cons token rest next =>
    cases token with
    -- An opening token asks for one more list to be closed.
    | opening =>
      obtain ⟨before, after, split, balanced⟩ :=
        next (show depth (count + 1) rest = none from surplus)
      exact ⟨.opening :: before, after, congrArg _ split, balanced⟩
    | atom kind text =>
      obtain ⟨before, after, split, balanced⟩ := next (show depth count rest = none from surplus)
      exact ⟨.atom kind text :: before, after, congrArg _ split, by cases count <;> exact balanced⟩
    -- A closing token is too many when no list is open.
    | closing =>
      cases count with
      | zero => exact ⟨[], rest, rfl, rfl⟩
      | succ count =>
        obtain ⟨before, after, split, balanced⟩ := next (show depth count rest = none from surplus)
        exact ⟨.closing :: before, after, congrArg _ split, balanced⟩

/-- Tokens that do not close too many lists can be read, and the stack is as deep as they are
nested. -/
theorem placed_of_depth {tokens : List Token} {inner : List Node} {below : List (List Node)}
    {count : Nat} (nested : depth below.length tokens = some count) :
    ∃ inner' below', tokens.foldlM place (inner :: below) = some (inner' :: below') ∧
      below'.length = count := by
  induction tokens generalizing inner below with
  | nil => exact ⟨inner, below, rfl, by cases below <;> exact Option.some.inj nested⟩
  | cons token rest next =>
    -- An opening goes one deeper, an atom stays, and a closing ends the innermost list.
    cases token with
    | opening =>
      exact next (show depth (inner :: below).length rest = some count from nested)
    | atom kind text =>
      have nested : depth below.length rest = some count := by
        cases below <;> exact nested
      exact next nested
    | closing =>
      cases below with
      | nil => cases nested
      | cons outer below => exact next (show depth below.length rest = some count from nested)

/-! The first form. -/

/-- The first form of the tokens, which is returned as soon as it is complete. The stack holds what
has been read before. -/
def first : List (List Node) → List Token → Option Node
  | _, [] => none
  | stack, token :: rest =>
    (place stack token).bind fun stack =>
      match stack with
      | [[form]] => some form
      | _ => first stack rest

/-- While a list is open, no form is complete. -/
theorem first_step {stack below : List (List Node)} {token : Token} {inner : List Node}
    (placed : place stack token = some (inner :: (below ++ [[]]))) (rest : List Token) :
    first stack (token :: rest) = first (inner :: (below ++ [[]])) rest := by
  rw [first, placed, Option.bind_some]
  split
  · next form same => simp at same
  · rfl

/-- Tokens inside an open list are read as they are without it. -/
theorem first_inside {tokens : List Token} {inner inner' : List Node}
    {below below' : List (List Node)}
    (placed : tokens.foldlM place (inner :: below) = some (inner' :: below')) (rest : List Token) :
    first (inner :: (below ++ [[]])) (tokens ++ rest) =
      first (inner' :: (below' ++ [[]])) rest := by
  -- The induction is on the tokens: the outer list stays at the bottom of the stack.
  induction tokens generalizing inner below with
  | nil =>
    cases Option.some.inj placed
    rfl
  | cons token tokens next =>
    cases token with
    -- A list is opened inside the outer one.
    | opening =>
      rw [List.cons_append, @first_step _ (inner :: below) _ [] rfl]
      exact next placed
    | atom kind text =>
      rw [List.cons_append, @first_step _ below _ (inner ++ [.atom kind text]) rfl]
      exact next placed
    | closing =>
      cases below with
      | nil => cases placed
      | cons outer below =>
        simp only [List.cons_append]
        rw [@first_step _ below _ (outer ++ [.list inner]) rfl]
        exact next placed

/-- A list that is never closed is not returned. -/
theorem first_open {tokens : List Token} (never : ∀ token ∈ tokens, token ≠ .closing)
    (inner : List Node) (below : List (List Node)) :
    first (inner :: (below ++ [[]])) tokens = none := by
  induction tokens generalizing inner below with
  | nil => rfl
  | cons token tokens next =>
    rw [List.forall_mem_cons] at never
    -- Without a closing parenthesis the stack only grows, and the list at its bottom stays open.
    cases token with
    | opening =>
      rw [@first_step _ (inner :: below) _ [] rfl]
      exact next never.2 [] (inner :: below)
    | atom kind text =>
      rw [@first_step _ below _ (inner ++ [.atom kind text]) rfl]
      exact next never.2 (inner ++ [.atom kind text]) below
    | closing => exact absurd rfl never.1

section Wrapped

variable {tokens : List Token}

/-- Trees placed inside parentheses are completed before what follows. -/
theorem first_wrapped {inner : List Node} {below : List (List Node)}
    (placed : tokens.foldlM place [[]] = some (inner :: below)) (rest : List Token) :
    first [[]] (.opening :: (tokens ++ rest)) = first (inner :: (below ++ [[]])) rest := by
  rw [@first_step _ [] _ [] rfl]
  exact first_inside placed rest

/-- Balanced tokens between parentheses are the forms of the list that is returned. -/
theorem first_balanced (balanced : Balanced tokens) :
    ∃ forms, Node.tokensAll forms = tokens ∧
      ∀ rest, first [[]] (.opening :: (tokens ++ .closing :: rest)) = some (.list forms) := by
  -- Balanced tokens leave no list open, so all nodes are in the one that is returned.
  obtain ⟨forms, below, placed, empty⟩ := @placed_of_depth tokens [] [] 0 balanced
  rw [List.length_eq_zero_iff.mp empty] at placed
  refine ⟨forms, ?_, fun rest => ?_⟩
  · exact (openTokens_foldlM tokens placed (List.cons_ne_nil _ _)).trans (List.nil_append _)
  · rw [first_wrapped placed]
    rfl

/-- A parenthesis that closes too much ends the list. -/
theorem first_surplus (surplus : ¬ Opened tokens) :
    ∃ before after forms, tokens = before ++ .closing :: after ∧ Node.tokensAll forms = before ∧
      ∀ rest, first [[]] (.opening :: (tokens ++ rest)) = some (.list forms) := by
  -- The nesting gets stuck at some parenthesis, and up to there it is balanced.
  have none : depth 0 tokens = none := by
    rw [Opened, Option.not_isSome_iff_eq_none] at surplus
    exact surplus
  obtain ⟨before, after, split, balanced⟩ := depth_eq_none none
  obtain ⟨forms, all, read⟩ := first_balanced balanced
  refine ⟨before, after, forms, split, all, fun rest => ?_⟩
  rw [split, List.append_assoc]
  exact read (after ++ rest)

/-- The closing parenthesis goes to the innermost list, so that others remain open. -/
theorem first_unclosed {count : Nat} (nested : depth 0 tokens = some (count + 1)) :
    first [[]] (.opening :: (tokens ++ [.closing])) = none := by
  -- Some list is still open below, and the parenthesis closes the one above it.
  obtain ⟨inner, below, placed, deep⟩ := @placed_of_depth tokens [] [] (count + 1) nested
  rw [first_wrapped placed]
  cases below with
  | nil => cases deep
  | cons outer below =>
    rw [List.cons_append, @first_step _ below _ (outer ++ [.list inner]) rfl]
    rfl

end Wrapped

/-! Splitting. -/

/-- A way of splitting texts: with every character, some tokens are complete. -/
structure Lexer (σ : Type*) where
  /-- Between two tokens. -/
  start : σ
  step : σ → Char → σ × List Token

namespace Lexer

variable {σ : Type*} (lexer : Lexer σ)

/-- The state behind a text, and the tokens that are complete there. -/
def run : σ → List Char → σ × List Token
  | state, [] => (state, [])
  | state, char :: rest =>
    let (next, tokens) := lexer.step state char
    let (last, later) := run next rest
    (last, tokens ++ later)

/-- Scanning a text in two parts is scanning it as a whole. -/
theorem run_append (state : σ) (text rest : List Char) :
    lexer.run state (text ++ rest) = ((lexer.run (lexer.run state text).1 rest).1,
      (lexer.run state text).2 ++ (lexer.run (lexer.run state text).1 rest).2) := by
  induction text generalizing state with
  | nil => rfl
  | cons char text next =>
    simp only [List.cons_append, run, next, List.append_assoc]

/-- The tokens of a text, whose last line is ended. -/
def tokens (text : List Char) : List Token := (lexer.run lexer.start (text ++ ['\n'])).2

/-- Outside of quotes, parentheses are tokens of their own, and a line ends words and comments.
Inside of quotes, parentheses and newlines belong to the quoted text. -/
structure Lawful (quoted : σ → Prop) : Prop where
  opening : lexer.step lexer.start '(' = (lexer.start, [.opening])
  closing : lexer.step lexer.start ')' = (lexer.start, [.closing])
  newline : lexer.step lexer.start '\n' = (lexer.start, [])
  line : ∀ state, ¬ quoted state → (lexer.step state '\n').1 = lexer.start
  inside : ∀ state, quoted state →
    ∀ token ∈ (lexer.run state ['\n', ')', '\n']).2, token ≠ .closing

/-- The reader returns the first complete form of a text and ignores what follows. -/
def ReadsFirst (parse : List Char → Option Node) : Prop :=
  ∀ text, parse (text ++ ['\n']) = first [[]] (lexer.tokens text)

variable {lexer} {quoted : σ → Prop} (lawful : lexer.Lawful quoted) (text : List Char)

include lawful

/-- Parentheses on lines of their own around a text: the closing one may be inside a quote. -/
theorem Lawful.tokens_wrapped : ∃ rest,
    lexer.tokens ('(' :: '\n' :: (text ++ ['\n', ')'])) = .opening :: (lexer.tokens text ++ rest) ∧
      (¬ quoted (lexer.run lexer.start text).1 → rest = [.closing]) ∧
      (quoted (lexer.run lexer.start text).1 → ∀ token ∈ rest, token ≠ .closing) := by
  refine ⟨(lexer.run (lexer.run lexer.start (text ++ ['\n'])).1 [')', '\n']).2, ?_, ?_, ?_⟩
  · -- The line with the opening parenthesis leaves the lexer between two tokens.
    have shape : '(' :: '\n' :: (text ++ ['\n', ')']) ++ ['\n'] =
        ['(', '\n'] ++ ((text ++ ['\n']) ++ [')', '\n']) := by simp
    have front : lexer.run lexer.start ['(', '\n'] = (lexer.start, [.opening]) := by
      simp [run, lawful.opening, lawful.newline]
    rw [tokens, tokens, shape, run_append, front, run_append]
    rfl
  · -- Outside of a quote the last line begins as a text does.
    intro ended
    have line : (lexer.run lexer.start (text ++ ['\n'])).1 = lexer.start := by
      rw [run_append]
      exact lawful.line _ ended
    rw [line]
    simp [run, lawful.closing, lawful.newline]
  · -- Inside of one the parenthesis belongs to the quoted text.
    intro unended token member
    apply lawful.inside _ unended
    have shape : ['\n', ')', '\n'] = ['\n'] ++ [')', '\n'] := rfl
    rw [run_append] at member
    rw [shape, run_append]
    exact List.mem_append_right _ member

end Lexer

/-! The usual quotes and comments. -/

/-- What a text is in the middle of, with the characters of the atom so far. -/
inductive Place where
  | between
  | word (text : List Char)
  | comment
  | string (text : List Char)
  /-- Behind a backslash in a string. -/
  | escaped (text : List Char)
  | single (text : List Char)
  /-- In a quoted list, with the number of lists that are open inside of it. -/
  | nested (count : Nat) (text : List Char)

namespace Place

/-- Parentheses and newlines belong to the quoted text. -/
def quoted : Place → Prop
  | .string _ | .escaped _ | .nested _ _ => True
  | .between | .word _ | .comment | .single _ => False

/-- The first character of a token. -/
def enter (char : Char) : Place × List Token :=
  if char = '(' then (.between, [.opening])
  else if char = ')' then (.between, [.closing])
  else if isSpace char then (.between, [])
  else if char = ';' then (.comment, [])
  else if char = '"' then (.string [], [])
  else if char = '\'' then (.single [], [])
  else (.word [char], [])

/-- A character behind a token that it ends. -/
def leave (token : Token) (char : Char) : Place × List Token :=
  ((enter char).1, token :: (enter char).2)

def step : Place → Char → Place × List Token
  | .between, char => enter char
  | .word text, char =>
    if isDelimiter char || char = '"' then leave (.atom .bare text) char
    else (.word (text ++ [char]), [])
  | .comment, char => if char = '\n' then (.between, []) else (.comment, [])
  | .string text, char =>
    if char = '"' then (.between, [.atom .doubleQuoted text])
    else if char = '\\' then (.escaped text, [])
    else (.string (text ++ [char]), [])
  | .escaped text, char => (.string (text ++ [char]), [])
  | .single text, char =>
    if text = [] && char = '(' then (.nested 0 [char], [])
    else if isDelimiter char then leave (.atom .singleQuoted text) char
    else (.single (text ++ [char]), [])
  | .nested count text, char =>
    if char = '(' then (.nested (count + 1) (text ++ [char]), [])
    else if char = ')' then
      if count = 0 then (.between, [.atom .singleQuoted (text ++ [char])])
      else (.nested (count - 1) (text ++ [char]), [])
    else (.nested count (text ++ [char]), [])

/-- Comments go to the end of a line, strings to a quote without a backslash, and other quotes to
the end of a word or of a list. -/
def lexer : Lexer Place := ⟨.between, step⟩

/-- The scanner of quoted atoms is lawful. -/
theorem lawful : lexer.Lawful quoted where
  opening := rfl
  closing := rfl
  newline := rfl
  line state ended := by
    cases state with
    | between | word _ | comment => rfl
    | single text => cases text <;> rfl
    | string _ | escaped _ | nested _ _ => exact absurd trivial ended
  -- No token is read inside of a string.
  inside state _ token member := by
    cases state with
    | between | word _ | comment | single _ => contradiction
    | string text => cases member
    | escaped text => cases member
    | nested count text =>
      -- The parenthesis may end the quoted list, which is an atom.
      cases count with
      | zero =>
        rw [List.mem_singleton.mp member]
        exact Token.noConfusion
      | succ count => cases member

end Place

end QuotedSexp
