import Mathlib.Algebra.Group.Nat.Defs
import Mathlib.Data.List.TakeWhile
import Mathlib.Data.List.Forall2

/-! Texts of words, fields and lines, which are taken apart again at the characters between them. -/

namespace Listing

variable {α : Type*}

/-- What stands in front of the first element without a property is determined by the list. -/
theorem word_inj {p : α → Bool} {word word' rest rest' : List α}
    (inside : ∀ x ∈ word, p x = true) (inside' : ∀ x ∈ word', p x = true)
    (ends : ∀ x ∈ rest.head?, p x = false) (ends' : ∀ x ∈ rest'.head?, p x = false)
    (same : word ++ rest = word' ++ rest') : word = word' ∧ rest = rest' := by
  -- The longest prefix with the property is the word, as nothing behind it continues it.
  have taken : ∀ {word rest : List α}, (∀ x ∈ word, p x = true) → (∀ x ∈ rest.head?, p x = false) →
      (word ++ rest).takeWhile p = word := by
    intro word rest inside ends
    rw [List.takeWhile_append_of_pos inside]
    cases rest with
    | nil => rw [List.takeWhile_nil, List.append_nil]
    | cons first rest =>
      rw [List.takeWhile_cons, ends first rfl, if_neg Bool.false_ne_true, List.append_nil]
  have words : word = word' := by
    rw [← taken inside ends, same, taken inside' ends']
  subst words
  exact ⟨rfl, List.append_cancel_left same⟩

/-- The same at a separator that does not occur in the words. -/
theorem separated_inj [DecidableEq α] {sep : α} {word word' rest rest' : List α}
    (inside : sep ∉ word) (inside' : sep ∉ word')
    (same : word ++ sep :: rest = word' ++ sep :: rest') : word = word' ∧ rest = rest' := by
  -- The separator ends the word on both sides.
  have apart : ∀ {word : List α}, sep ∉ word → ∀ x ∈ word, (x != sep) = true := by
    intro word absent x member
    exact bne_iff_ne.mpr fun equal => absent (equal ▸ member)
  have head : ∀ (rest : List α), ∀ x ∈ (sep :: rest).head?, (x != sep) = false := by
    intro rest x first
    cases first
    exact bne_self_eq_false sep
  obtain ⟨words, rests⟩ := word_inj (apart inside) (apart inside') (head rest) (head rest') same
  exact ⟨words, (List.cons.inj rests).2⟩

/-- Lists of the same texts are related one by one, as far as a text tells its element. -/
theorem forall₂_of_map {β γ : Type*} {text : β → γ} {related : β → β → Prop} {xs ys : List β}
    (tells : ∀ x ∈ xs, ∀ y ∈ ys, text x = text y → related x y)
    (same : xs.map text = ys.map text) : List.Forall₂ related xs ys := by
  -- Induction on the first list.
  induction xs generalizing ys with
  | nil =>
    rw [List.map_eq_nil_iff.mp same.symm]
    exact .nil
  | cons x xs ih =>
    cases ys with
    | nil => cases same
    | cons y ys =>
      obtain ⟨first, others⟩ := List.cons.inj same
      refine .cons (tells x List.mem_cons_self y List.mem_cons_self first) (ih ?_ others)
      intro x inside y inside'
      exact tells x (List.mem_cons_of_mem _ inside) y (List.mem_cons_of_mem _ inside')

/-! Lines, with the same element at the end of each. -/

/-- The text of lines that each end in the same element. -/
def lines (sep : α) (texts : List (List α)) : List α := texts.flatMap (· ++ [sep])

variable [DecidableEq α] {sep : α}

/-- Lines are read back from their text. -/
theorem lines_injective {texts texts' : List (List α)} (inside : ∀ text ∈ texts, sep ∉ text)
    (inside' : ∀ text ∈ texts', sep ∉ text) (same : lines sep texts = lines sep texts') :
    texts = texts' := by
  have filled : ∀ (text : List α) (texts : List (List α)), lines sep (text :: texts) =
      text ++ sep :: lines sep texts := by
    intro text texts
    rw [lines, lines, List.flatMap_cons, List.append_assoc, List.singleton_append]
  -- Induction on the lines of the first text.
  induction texts generalizing texts' with
  | nil =>
    cases texts' with
    | nil => rfl
    | cons text' rest' =>
      rw [filled] at same
      exact absurd same.symm (by simp [lines])
  -- The first lines agree up to their separators, and then so do the others.
  | cons text rest ih =>
    cases texts' with
    | nil =>
      rw [filled] at same
      exact absurd same (by simp [lines])
    | cons text' rest' =>
      rw [List.forall_mem_cons] at inside inside'
      rw [filled, filled] at same
      obtain ⟨first, later⟩ := separated_inj inside.1 inside'.1 same
      rw [first, ih inside.2 inside'.2 later]

/-- Sections of lines, each behind the line of its label. -/
def sections {β : Type*} (label : β → List α) (body : β → List (List α)) (blocks : List β) :
    List (List α) :=
  blocks.flatMap fun block => label block :: body block

omit [DecidableEq α] in
/-- The lines behind the labels are those that do not look like a label. -/
theorem filter_sections {β : Type*} {p : List α → Bool} {label : β → List α}
    {body : β → List (List α)} {blocks : List β}
    (labels : ∀ block ∈ blocks, p (label block) = false)
    (bodies : ∀ block ∈ blocks, ∀ line ∈ body block, p line = true) :
    (sections label body blocks).filter p = blocks.flatMap body := by
  induction blocks with
  | nil => rfl
  | cons block rest ih =>
    -- The label is left out, and the lines behind it are kept.
    rw [List.forall_mem_cons] at labels bodies
    rw [sections, List.flatMap_cons, List.flatMap_cons, List.filter_append, List.filter_cons,
      if_neg (by rw [labels.1]; exact Bool.false_ne_true),
      List.filter_eq_self.mpr bodies.1]
    exact congrArg (body block ++ ·) (ih labels.2 bodies.2)

/-- A page of lines, of which those of the items have a mark and the others do not. -/
structure Page {β ι : Type*} (sep : α) (mark : List α → Bool) (header : List (List α))
    (label : β → List α) (line : ι → List α) (items : List ι) : Prop where
  header : ∀ text ∈ header, sep ∉ text ∧ mark text = false
  label : ∀ block, sep ∉ label block ∧ mark (label block) = false
  line : ∀ item ∈ items, sep ∉ line item ∧ mark (line item) = true

section Pages

variable {β ι : Type*} {mark : List α → Bool} {header header' : List (List α)} {label : β → List α}
  {line : ι → List α} {items items' : β → List ι} {blocks blocks' : List β}

omit [DecidableEq α] in
/-- No text of a page has a separator in it. -/
theorem Page.plain (page : Page sep mark header label line (blocks.flatMap items)) :
    ∀ text ∈ header ++ sections label (fun block => (items block).map line) blocks,
      sep ∉ text := by
  refine List.forall_mem_append.mpr ⟨fun text member => (page.header text member).1, ?_⟩
  intro text member
  obtain ⟨block, inside, place⟩ := List.mem_flatMap.mp member
  -- The text is a label or the line of an item.
  rcases List.mem_cons.mp place with rfl | place
  · exact (page.label block).1
  · obtain ⟨item, held, rfl⟩ := List.mem_map.mp place
    exact (page.line item (List.mem_flatMap.mpr ⟨block, inside, held⟩)).1

omit [DecidableEq α] in
/-- The marked texts of a page are the lines of its items. -/
theorem Page.marked (page : Page sep mark header label line (blocks.flatMap items)) :
    (header ++ sections label (fun block => (items block).map line) blocks).filter mark =
      (blocks.flatMap items).map line := by
  -- No text of the header is marked.
  have none : header.filter mark = [] := by
    refine List.filter_eq_nil_iff.mpr fun text member => ?_
    rw [(page.header text member).2]
    exact Bool.false_ne_true
  rw [List.filter_append, none, List.nil_append,
    filter_sections (fun block _ => (page.label block).2), List.map_flatMap]
  intro block inside text member
  obtain ⟨item, held, rfl⟩ := List.mem_map.mp member
  exact (page.line item (List.mem_flatMap.mpr ⟨block, inside, held⟩)).2

/-- Pages of one text have related items, as far as a line tells its item. -/
theorem Page.related {related : ι → ι → Prop}
    (page : Page sep mark header label line (blocks.flatMap items))
    (page' : Page sep mark header' label line (blocks'.flatMap items'))
    (tells : ∀ item ∈ blocks.flatMap items, ∀ item' ∈ blocks'.flatMap items',
      line item = line item' → related item item')
    (same : lines sep (header ++ sections label (fun block => (items block).map line) blocks) =
      lines sep (header' ++ sections label (fun block => (items' block).map line) blocks')) :
    List.Forall₂ related (blocks.flatMap items) (blocks'.flatMap items') := by
  -- The items are on the lines with the mark.
  have marked := congrArg (List.filter mark) (lines_injective page.plain page'.plain same)
  rw [page.marked, page'.marked] at marked
  exact forall₂_of_map tells marked

end Pages

/-! Fields, with a separator and a filling between them. -/

/-- The text of fields with the same elements between them. -/
def fields (sep : α) (fill : List α) : List (List α) → List α
  | [] => []
  | [text] => text
  | text :: rest => text ++ sep :: (fill ++ fields sep fill rest)

omit [DecidableEq α] in
/-- What stands in no field and not between them does not stand in the text. -/
theorem not_mem_fields {x : α} {fill : List α} {texts : List (List α)} (apart : x ≠ sep)
    (filling : x ∉ fill) (inside : ∀ text ∈ texts, x ∉ text) : x ∉ fields sep fill texts := by
  induction texts with
  | nil => exact List.not_mem_nil
  | cons text rest ih =>
    rw [List.forall_mem_cons] at inside
    -- Between two fields stand the separator and the filling.
    cases rest with
    | nil => exact inside.1
    | cons next later =>
      have others := ih inside.2
      simp only [fields, List.mem_append, List.mem_cons, not_or] at others ⊢
      exact ⟨inside.1, apart, filling, others⟩

/-- Fields that are not empty are read back from their text. -/
theorem fields_injective {fill : List α} {texts texts' : List (List α)}
    (inside : ∀ text ∈ texts, text ≠ [] ∧ sep ∉ text)
    (inside' : ∀ text ∈ texts', text ≠ [] ∧ sep ∉ text)
    (same : fields sep fill texts = fields sep fill texts') : texts = texts' := by
  have some : ∀ {text : List α} {rest : List (List α)}, text ≠ [] →
      fields sep fill (text :: rest) ≠ [] := by
    intro text rest filled empty
    cases rest with
    | nil => exact filled empty
    | cons next later => exact filled (List.append_eq_nil_iff.mp empty).1
  -- One field alone has no separator, which every longer list has.
  have alone : ∀ {text text' next : List α} {rest : List (List α)}, sep ∉ text →
      fields sep fill [text] ≠ fields sep fill (text' :: next :: rest) := by
    intro text text' next rest absent equal
    have member : sep ∈ fields sep fill (text' :: next :: rest) :=
      List.mem_append_right _ List.mem_cons_self
    exact absent (show sep ∈ fields sep fill [text] from equal ▸ member)
  induction texts generalizing texts' with
  | nil =>
    cases texts' with
    | nil => rfl
    | cons text' rest' => exact absurd same.symm (some (inside' text' List.mem_cons_self).1)
  | cons text rest ih =>
    cases texts' with
    | nil => exact absurd same (some (inside text List.mem_cons_self).1)
    | cons text' rest' =>
      rw [List.forall_mem_cons] at inside inside'
      cases rest with
      | nil =>
        cases rest' with
        | nil => exact congrArg (· :: []) same
        | cons next' later' => exact absurd same (alone inside.1.2)
      -- Two fields or more are separated in the same way.
      | cons next later =>
        cases rest' with
        | nil => exact absurd same.symm (alone inside'.1.2)
        | cons next' later' =>
          obtain ⟨first, others⟩ := separated_inj inside.1.2 inside'.1.2 same
          rw [first, ih inside.2 inside'.2 (List.append_cancel_left others)]

/-! Words and numbers. -/

/-- A text without a space and on one line. -/
def isWord (text : List Char) : Bool := text.all fun char => char != ' ' && char != '\n'

/-- A word has no space and no line end. -/
theorem forall_of_isWord {text : List Char} (word : isWord text = true) :
    ∀ char ∈ text, char ≠ ' ' ∧ char ≠ '\n' := by
  intro char member
  have apart := Bool.and_eq_true_iff.mp (List.all_eq_true.mp word char member)
  exact ⟨bne_iff_ne.mp apart.1, bne_iff_ne.mp apart.2⟩

/-- A number is read back from its digits. -/
theorem toDigits_injective {n m : Nat} (same : Nat.toDigits 10 n = Nat.toDigits 10 m) : n = m := by
  have read := congrArg (fun digits => Nat.ofDigitChars 10 digits 0) same
  simpa only [Nat.ofDigitChars_ten_toDigits] using read

/-- The decimal digits of a number are digits. -/
theorem isDigit_toDigits (n : Nat) : ∀ char ∈ Nat.toDigits 10 n, char.isDigit = true :=
  fun _ member => Nat.isDigit_of_mem_toDigits (by decide) (by decide) member

/-- Digits are no separators. -/
theorem isDigit_ne {char : Char} (digit : char.isDigit = true) :
    char ≠ ' ' ∧ char ≠ ',' ∧ char ≠ '\n' := by
  refine ⟨?_, ?_, ?_⟩
  · rintro rfl
    cases digit
  · rintro rfl
    cases digit
  · rintro rfl
    cases digit

/-- No line end stands among decimal digits. -/
theorem newline_toDigits (n : Nat) : '\n' ∉ Nat.toDigits 10 n :=
  fun member => (isDigit_ne (isDigit_toDigits n _ member)).2.2 rfl

/-- Numbers are read back from the digits in front of what is no digit. -/
theorem digits_inj {n m : Nat} {rest rest' : List Char}
    (ends : ∀ x ∈ rest.head?, x.isDigit = false) (ends' : ∀ x ∈ rest'.head?, x.isDigit = false)
    (same : Nat.toDigits 10 n ++ rest = Nat.toDigits 10 m ++ rest') : n = m ∧ rest = rest' := by
  obtain ⟨digits, rests⟩ :=
    word_inj (isDigit_toDigits n) (isDigit_toDigits m) ends ends' same
  exact ⟨toDigits_injective digits, rests⟩

/-- A number has no more digits than a power of ten above it has zeros. -/
theorem length_toDigits_le {n count : Nat} (some : 0 < count) (small : n < 10 ^ count) :
    (Nat.toDigits 10 n).length ≤ count :=
  (Nat.length_toDigits_le_iff (by decide) some).mpr small

end Listing
